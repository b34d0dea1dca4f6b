import Mathlib.Data.List.Nodup
import NuAgent.Lib.DList

/-!
# Doubly linked lists that end in null

The nodes and their two pointers are those of `Lib/DList`, but the list has no head node: a variable
points at the first node, and the ends hold null. `Line m prev first l` says that `first` leads through
`l`, the first node pointing back at `prev`. The rules are those of an intrusive list: put a node in
front (`Line.push`), take one out wherever it stands (`Line.drop`), and leave alone what was not written
(`Line.congr`). `Path` is the same list without the pointers back.
-/

namespace NuAgent.NullList

open DList Links

variable {N : Type*}

/-- `first` leads through `l` to null, and the first node points back at `prev`. -/
def Line (m : Links N) : Option N → Option N → List N → Prop
  | _, first, [] => first = none
  | prev, first, a :: l => first = some a ∧ m.pprev a = prev ∧ Line m (some a) (m.pnext a) l

/-- `first` leads through `l` to null. -/
def Path (m : Links N) : Option N → List N → Prop
  | first, [] => first = none
  | first, a :: l => first = some a ∧ Path m (m.pnext a) l

variable {m m' : Links N} {a : N} {prev first : Option N} {l l₁ l₂ : List N}

/-- A list reads only the pointers of its nodes. -/
theorem Line.congr (h : Line m prev first l)
    (hsame : ∀ b ∈ l, m'.pnext b = m.pnext b ∧ m'.pprev b = m.pprev b) : Line m' prev first l := by
  induction l generalizing prev first with
  | nil => exact h
  | cons b l ih =>
    obtain ⟨hfirst, hprev, hrest⟩ := h
    obtain ⟨hn, hp⟩ := hsame b List.mem_cons_self
    refine ⟨hfirst, hp.trans hprev, ?_⟩
    rw [hn]
    exact ih hrest fun c hc => hsame c (List.mem_cons_of_mem b hc)

theorem Path.congr (h : Path m first l) (hsame : ∀ b ∈ l, m'.pnext b = m.pnext b) :
    Path m' first l := by
  induction l generalizing first with
  | nil => exact h
  | cons b l ih =>
    refine ⟨h.1, ?_⟩
    rw [hsame b List.mem_cons_self]
    exact ih h.2 fun c hc => hsame c (List.mem_cons_of_mem b hc)

/-- The variable that points at the first node. -/
theorem Line.first_eq (h : Line m prev first l) : first = l.head? := by
  cases l with
  | nil => exact h
  | cons b l => exact h.1

theorem Path.first_eq (h : Path m first l) : first = l.head? := by
  cases l with
  | nil => exact h
  | cons b l => exact h.1

/-- The list from a node in it on. -/
theorem Line.suffix (h : Line m prev first (l₁ ++ l₂)) : ∃ before, Line m before l₂.head? l₂ := by
  induction l₁ generalizing prev first with
  | nil =>
    refine ⟨prev, ?_⟩
    have hfirst : first = l₂.head? := h.first_eq
    rw [← hfirst]
    exact h
  | cons b l₁ ih => exact ih h.2.2

/-- What stands in front of a node is what it points back at. -/
theorem Line.pprev_eq (h : Line m prev first (l₁ ++ a :: l₂)) :
    m.pprev a = l₁.getLast?.or prev := by
  induction l₁ generalizing prev first with
  | nil => exact h.2.1
  | cons b l₁ ih =>
    rw [ih h.2.2, List.getLast?_cons]
    cases l₁.getLast? <;> rfl

theorem Line.pnext_eq (h : Line m prev first (l₁ ++ a :: l₂)) : m.pnext a = l₂.head? := by
  obtain ⟨before, h⟩ := h.suffix
  exact h.2.2.first_eq

/-- A node that comes behind null is the only one. -/
theorem Line.first_iff (h : Line m none first (l₁ ++ a :: l₂)) (hnodup : (l₁ ++ a :: l₂).Nodup) :
    first = some a ↔ l₁ = [] := by
  cases l₁ with
  | nil => exact ⟨fun _ => rfl, fun _ => h.1⟩
  | cons b l₁ =>
    refine ⟨fun hb => ?_, fun hnil => absurd hnil (List.cons_ne_nil b l₁)⟩
    obtain rfl : b = a := Option.some.inj (h.1.symm.trans hb)
    exact absurd (List.mem_append_right l₁ List.mem_cons_self) (List.nodup_cons.1 hnodup).1

section Edit

variable [DecidableEq N]

/-- The pointers of `c`, when there is a node `c`. -/
def setNext (m : Links N) (c v : Option N) : Links N := c.elim m fun c => m.setPnext c v

def setPrev (m : Links N) (b v : Option N) : Links N := b.elim m fun b => m.setPprev b v

theorem setNext_pprev (m : Links N) (c v : Option N) (x : N) :
    (setNext m c v).pprev x = m.pprev x := by
  cases c <;> rfl

theorem setPrev_pnext (m : Links N) (b v : Option N) (x : N) :
    (setPrev m b v).pnext x = m.pnext x := by
  cases b <;> rfl

theorem setNext_pnext (m : Links N) (c v : Option N) (x : N) :
    (setNext m c v).pnext x = if c = some x then v else m.pnext x := by
  cases c with
  | none => rfl
  | some c =>
    show (m.setPnext c v).pnext x = _
    rw [setPnext_pnext]
    simp only [Option.some.injEq, eq_comm]

theorem setPrev_pprev (m : Links N) (b v : Option N) (x : N) :
    (setPrev m b v).pprev x = if b = some x then v else m.pprev x := by
  cases b with
  | none => rfl
  | some b =>
    show (m.setPprev b v).pprev x = _
    rw [setPprev_pprev]
    simp only [Option.some.injEq, eq_comm]

/-- `a` put in front of the list. -/
def push (m : Links N) (first : Option N) (a : N) : Links N :=
  (setPrev (m.setPnext a first) first (some a)).setPprev a none

/-- The neighbours of `a` joined, and its own pointers cleared. -/
def drop (m : Links N) (a : N) : Links N :=
  ((setPrev (setNext m (m.pprev a) (m.pnext a)) (m.pnext a) (m.pprev a)).setPnext a none).setPprev a
    none

theorem push_pnext (m : Links N) (first : Option N) (a x : N) :
    (push m first a).pnext x = if x = a then first else m.pnext x := by
  unfold push
  rw [setPprev_pnext, setPrev_pnext, setPnext_pnext]

theorem push_pprev (m : Links N) (first : Option N) (a x : N) :
    (push m first a).pprev x =
      if x = a then none else if first = some x then some a else m.pprev x := by
  unfold push
  rw [setPprev_pprev, setPrev_pprev, setPnext_pprev]

theorem drop_pnext (m : Links N) (a x : N) : (drop m a).pnext x =
    if x = a then none else if m.pprev a = some x then m.pnext a else m.pnext x := by
  unfold drop
  rw [setPprev_pnext, setPnext_pnext, setPrev_pnext, setNext_pnext]

theorem drop_pprev (m : Links N) (a x : N) : (drop m a).pprev x =
    if x = a then none else if m.pnext a = some x then m.pprev a else m.pprev x := by
  unfold drop
  rw [setPprev_pprev, setPnext_pprev, setPrev_pprev, setNext_pprev]

/-- A new node in front. -/
theorem Line.push (h : Line m none first l) (ha : a ∉ l) (hnodup : l.Nodup) :
    Line (push m first a) none (some a) (a :: l) := by
  refine ⟨rfl, ?_, ?_⟩
  · rw [push_pprev, if_pos rfl]
  · rw [push_pnext, if_pos rfl]
    cases l with
    | nil => exact h
    | cons b l =>
      obtain ⟨rfl, hprev, hrest⟩ := h
      have hba : b ≠ a := fun h => ha (h ▸ List.mem_cons_self)
      refine ⟨rfl, ?_, ?_⟩
      · rw [push_pprev, if_neg hba, if_pos rfl]
      · rw [push_pnext, if_neg hba]
        refine hrest.congr fun c hc => ?_
        have hca : c ≠ a := fun h => ha (h ▸ List.mem_cons_of_mem b hc)
        have hbc : ¬some b = some c := fun h =>
          (List.nodup_cons.1 hnodup).1 (Option.some.inj h ▸ hc)
        rw [push_pnext, if_neg hca, push_pprev, if_neg hca, if_neg hbc]
        exact ⟨rfl, rfl⟩

/-- Lists that `a` and the first node are not in are left alone. -/
theorem Line.push_frame {first' : Option N} (h : Line m prev first l) (ha : a ∉ l)
    (hfirst : ∀ b ∈ l, first' ≠ some b) : Line (NullList.push m first' a) prev first l := by
  refine h.congr fun c hc => ?_
  have hca : c ≠ a := fun h => ha (h ▸ hc)
  rw [push_pnext, if_neg hca, push_pprev, if_neg hca, if_neg (hfirst c hc)]
  exact ⟨rfl, rfl⟩

/-- The rest of a list behind a node that was taken out. -/
theorem Line.drop_behind (h : Line m (some a) (m.pnext a) l) (ha : a ∉ l) (hnodup : l.Nodup)
    (hbefore : ∀ b ∈ l, m.pprev a ≠ some b) : Line (drop m a) (m.pprev a) (m.pnext a) l := by
  cases l with
  | nil => exact h
  | cons b l =>
    obtain ⟨hfirst, hprev, hrest⟩ := h
    have hba : b ≠ a := fun h => ha (h ▸ List.mem_cons_self)
    refine ⟨hfirst, ?_, ?_⟩
    · rw [drop_pprev, if_neg hba, if_pos hfirst]
    · rw [drop_pnext, if_neg hba, if_neg (hbefore b List.mem_cons_self)]
      refine hrest.congr fun c hc => ?_
      have hca : c ≠ a := fun h => ha (h ▸ List.mem_cons_of_mem b hc)
      have hbc : ¬m.pnext a = some c := fun h =>
        (List.nodup_cons.1 hnodup).1 (Option.some.inj (hfirst.symm.trans h) ▸ hc)
      rw [drop_pnext, if_neg hca, if_neg (hbefore c (List.mem_cons_of_mem b hc)), drop_pprev,
        if_neg hca, if_neg hbc]
      exact ⟨rfl, rfl⟩

/-- A node taken out of the list. -/
theorem Line.drop (h : Line m prev first (l₁ ++ a :: l₂)) (hnodup : (l₁ ++ a :: l₂).Nodup)
    (hprev : ∀ b ∈ l₁ ++ a :: l₂, prev ≠ some b) :
    Line (drop m a) prev (if l₁ = [] then m.pnext a else first) (l₁ ++ l₂) := by
  induction l₁ generalizing prev first with
  | nil =>
    obtain ⟨-, hback, hrest⟩ := h
    obtain ⟨ha, hrest'⟩ := List.nodup_cons.1 hnodup
    have hgone := hrest.drop_behind ha hrest' fun b hb => by
      rw [hback]
      exact hprev b (List.mem_cons_of_mem a hb)
    rw [hback] at hgone
    exact hgone
  | cons c l₁ ih =>
    rw [if_neg (List.cons_ne_nil c l₁)]
    obtain ⟨hfirst, hback, hrest⟩ := h
    obtain ⟨hc, hnodup'⟩ := List.nodup_cons.1 hnodup
    have hca : c ≠ a := fun h => hc (h ▸ List.mem_append_right l₁ List.mem_cons_self)
    have hnext : ¬m.pnext a = some c := fun h => by
      rw [hrest.pnext_eq] at h
      exact hc (List.mem_append_right l₁ (List.mem_cons_of_mem a (List.mem_of_head? h)))
    refine ⟨hfirst, ?_, ?_⟩
    · rw [drop_pprev, if_neg hca, if_neg hnext, hback]
    · have hnew := ih hrest hnodup' fun b hb h => hc (Option.some.inj h ▸ hb)
      have hpprev := hrest.pprev_eq
      rw [drop_pnext, if_neg hca]
      cases l₁ with
      | nil =>
        rw [if_pos rfl] at hnew
        have hlast : m.pprev a = some c := hpprev
        rw [if_pos hlast]
        exact hnew
      | cons d l₁ =>
        rw [if_neg (List.cons_ne_nil d l₁)] at hnew
        have hlast : ¬m.pprev a = some c := fun h => by
          rw [hpprev, List.getLast?_cons, Option.some_or] at h
          have hmem : c ∈ d :: l₁ :=
            List.mem_of_getLast? (by rw [List.getLast?_cons]; exact h)
          exact hc (List.mem_append_left _ hmem)
        rw [if_neg hlast]
        exact hnew

/-- Lists that neither the node nor its neighbours are in are left alone. -/
theorem Line.drop_frame (h : Line m prev first l) (ha : a ∉ l) (hnext : ∀ b ∈ l, m.pnext a ≠ some b)
    (hprev : ∀ b ∈ l, m.pprev a ≠ some b) : Line (NullList.drop m a) prev first l := by
  refine h.congr fun c hc => ?_
  have hca : c ≠ a := fun h => ha (h ▸ hc)
  rw [drop_pnext, if_neg hca, if_neg (hprev c hc), drop_pprev, if_neg hca, if_neg (hnext c hc)]
  exact ⟨rfl, rfl⟩

end Edit

end NuAgent.NullList
