import NuAgent.Dhcp.Grammar

/-!
# What the option parser reads

The loop of `_ParseDhcpOptions` looks at the byte under its cursor before it compares the cursor with
the end of the message, takes the length from the next byte and stores a fixed number of value bytes.
`parseReads` lists the offsets of all these reads in the order in which they are made, and
`parseLoop_congr` says that the list is complete. The loop stays inside the message exactly on areas
that follow the grammar and have their addresses inside.
-/

namespace NuAgent.Dhcp

open Memory

/-! ## Turns of the loop -/

/-- One turn of the loop, from an offset and the values stored so far; `none` at its end. -/
def turn (g : ℕ → UInt8) : ℕ × Options → Option (ℕ × Options)
  | (p, r) =>
    if g p ≠ 255 ∧ p < msgSize then
      some (if g p = 0 then (p + 1, r)
        else (p + 2 + (g (p + 1)).toNat, r.store g (g p) (p + 2)))
    else none

/-- The loop is its turns, one after the other. -/
theorem parseLoop_turn (g : ℕ → UInt8) (p : ℕ) (r : Options) :
    parseLoop g p r = match turn g (p, r) with
      | some (q, r') => parseLoop g q r'
      | none => r := by
  rw [parseLoop, turn]
  split_ifs <;> rfl

/-- A turn starts inside the message and moves the cursor forward. -/
theorem turn_lt {g : ℕ → UInt8} {st st' : ℕ × Options} (h : turn g st = some st') :
    st.1 < msgSize ∧ st.1 < st'.1 := by
  obtain ⟨p, r⟩ := st
  rw [turn] at h
  split_ifs at h with hturn hpad
  · obtain rfl := Option.some.inj h
    exact ⟨hturn.2, Nat.lt_succ_self p⟩
  · obtain rfl := Option.some.inj h
    refine ⟨hturn.2, ?_⟩
    show p < p + 2 + (g (p + 1)).toNat
    omega

/-- There is no endless sequence of turns. -/
theorem turn_wf (g : ℕ → UInt8) : WellFounded fun st' st => turn g st = some st' := by
  refine Subrelation.wf (fun {st' st} h => ?_) (measure fun st => msgSize - st.1).wf
  obtain ⟨hlt, hnext⟩ := turn_lt h
  show msgSize - st'.1 < msgSize - st.1
  omega

/-! ## Reads -/

/-- The offsets of the bytes that are stored for an option with its value at `p`. -/
def valueReads (code : UInt8) (p : ℕ) : List ℕ :=
  if code = 53 then [p]
  else if code = 50 ∨ code = 54 then [p, p + 1, p + 2, p + 3]
  else []

/-- The offsets that the loop reads from `p` on. -/
def parseReads (g : ℕ → UInt8) (p : ℕ) : List ℕ :=
  if g p ≠ 255 ∧ p < msgSize then
    if g p = 0 then p :: parseReads g (p + 1)
    else p :: (p + 1) :: (valueReads (g p) (p + 2) ++
      parseReads g (p + 2 + (g (p + 1)).toNat))
  else [p]
termination_by msgSize - p

section
variable {g g' : ℕ → UInt8} {p : ℕ} {r : Options}

theorem parseReads_end (h : ¬ (g p ≠ 255 ∧ p < msgSize)) : parseReads g p = [p] := by
  rw [parseReads, if_neg h]

theorem parseReads_pad (h : g p = 0) (hp : p < msgSize) :
    parseReads g p = p :: parseReads g (p + 1) := by
  rw [parseReads, if_pos ⟨by rw [h]; decide, hp⟩, if_pos h]

theorem parseReads_option (hend : g p ≠ 255) (hpad : g p ≠ 0) (hp : p < msgSize) :
    parseReads g p = p :: (p + 1) :: (valueReads (g p) (p + 2) ++
      parseReads g (p + 2 + (g (p + 1)).toNat)) := by
  rw [parseReads, if_pos ⟨hend, hp⟩, if_neg hpad]

theorem mem_valueReads_address {code : UInt8} (h : code = 50 ∨ code = 54) {j : ℕ} (hj : j < 4) :
    p + j ∈ valueReads code p := by
  have hne : code ≠ 53 := by
    rcases h with rfl | rfl <;> decide
  rw [valueReads, if_neg hne, if_pos h]
  interval_cases j <;> simp

/-- What is stored depends on the value bytes that are read. -/
theorem store_congr {code : UInt8} (h : ∀ a ∈ valueReads code p, g a = g' a) :
    r.store g code p = r.store g' code p := by
  have hword : code = 50 ∨ code = 54 → wordAt g p = wordAt g' p := fun hcode =>
    wordAt_eq_iff.mpr fun j hj => h (p + j) (mem_valueReads_address hcode hj)
  unfold Options.store
  split_ifs with h53 h50 h54
  · rw [h p (by rw [valueReads, if_pos h53]; exact List.mem_singleton_self p)]
  · rw [hword (.inl h50)]
  · rw [hword (.inr h54)]
  · rfl

/-- The loop depends on nothing but the bytes that are read. -/
theorem parseLoop_congr (h : ∀ a ∈ parseReads g p, g a = g' a) :
    parseLoop g p r = parseLoop g' p r := by
  induction p, r using parseLoop.induct g with
  | case1 p r hturn hpad ih =>
    rw [parseReads_pad hpad hturn.2, List.forall_mem_cons] at h
    obtain ⟨hcode, hrest⟩ := h
    rw [parseLoop_pad hpad hturn.2, parseLoop_pad (hcode ▸ hpad) hturn.2, ih hrest]
  | case2 p r hturn hpad ih =>
    rw [parseReads_option hturn.1 hpad hturn.2, List.forall_mem_cons, List.forall_mem_cons,
      List.forall_mem_append] at h
    obtain ⟨hcode, hlen, hvalue, hrest⟩ := h
    rw [parseLoop_option hturn.1 hpad hturn.2,
      parseLoop_option (hcode ▸ hturn.1) (hcode ▸ hpad) hturn.2, ← hcode, ← hlen,
      ← store_congr hvalue, ih hrest]
  | case3 p r hturn =>
    rw [parseReads_end hturn, List.forall_mem_singleton] at h
    rw [parseLoop_end hturn, parseLoop_end (h ▸ hturn)]

end

/-! ## Reading inside the message -/

/-- The four bytes of every address are inside the message, for items from `p` on. -/
def AddressesInside : ℕ → List OptionItem → Prop
  | _, [] => True
  | p, .pad :: is => AddressesInside (p + 1) is
  | p, .field x :: is =>
    (x.code = 50 ∨ x.code = 54 → p + 6 ≤ msgSize) ∧ AddressesInside (p + 2 + x.value.length) is

/-- The value bytes are inside the message when those of an address are. -/
theorem valueReads_inside_iff {code : UInt8} {p : ℕ} (hp : p < msgSize) :
    (∀ a ∈ valueReads code p, a < msgSize) ↔ (code = 50 ∨ code = 54 → p + 4 ≤ msgSize) := by
  constructor
  · intro h hcode
    exact h (p + 3) (mem_valueReads_address hcode (by decide))
  · intro h a ha
    rw [valueReads] at ha
    split_ifs at ha with h53 haddr
    · rw [List.mem_singleton.mp ha]
      exact hp
    · have hin := h haddr
      simp only [List.mem_cons, List.not_mem_nil, or_false] at ha
      omega
    · exact absurd ha List.not_mem_nil

/-- From an offset on the loop reads only inside the message exactly when the memory follows the
grammar from there, with the end and the addresses inside. -/
theorem reads_inside_iff (g : ℕ → UInt8) (p : ℕ) : (∀ a ∈ parseReads g p, a < msgSize) ↔
    ∃ is : List OptionItem, Tlv.Holds g p is ∧ p + (Tlv.encode is).length < msgSize ∧
      AddressesInside p is := by
  constructor
  · intro h
    induction p using parseReads.induct g with
    | case1 p hturn hpad ih =>
      rw [parseReads_pad hpad hturn.2, List.forall_mem_cons] at h
      obtain ⟨is, hmem, hlen, haddr⟩ := ih h.2
      refine ⟨.pad :: is, Tlv.holds_pad.mpr ⟨hpad, hmem⟩, ?_, haddr⟩
      rw [Tlv.encode_pad, List.length_cons]
      omega
    | case2 p hturn hpad ih =>
      rw [parseReads_option hturn.1 hpad hturn.2, List.forall_mem_cons, List.forall_mem_cons,
        List.forall_mem_append] at h
      obtain ⟨-, -, hvalue, hrest⟩ := h
      obtain ⟨is, hmem, hlen, haddr⟩ := ih hrest
      refine ⟨.field (Tlv.fieldAt g p hpad hturn.1) :: is, Tlv.holds_fieldAt.mpr hmem, ?_, ?_, ?_⟩
      · simp only [Tlv.encode_field, Tlv.fieldAt, List.length_cons, List.length_append,
          length_window]
        omega
      · exact (valueReads_inside_iff (by omega)).mp hvalue
      · simp only [Tlv.fieldAt, length_window]
        exact haddr
    | case3 p hturn =>
      rw [parseReads_end hturn, List.forall_mem_singleton] at h
      have hend : g p = 255 := by
        by_contra hne
        exact hturn ⟨hne, h⟩
      exact ⟨[], Tlv.holds_nil.mpr hend, h, trivial⟩
  · rintro ⟨is, hmem, hlen, haddr⟩
    induction is generalizing p with
    | nil =>
      have hend := Tlv.holds_nil.mp hmem
      rw [parseReads_end fun h => h.1 hend, List.forall_mem_singleton]
      exact hlen
    | cons i is ih =>
      cases i with
      | pad =>
        obtain ⟨hpad, hrest⟩ := Tlv.holds_pad.mp hmem
        rw [Tlv.encode_pad, List.length_cons] at hlen
        rw [parseReads_pad hpad (by omega), List.forall_mem_cons]
        exact ⟨by omega, ih (p + 1) hrest (by omega) haddr⟩
      | field x =>
        obtain ⟨hcode, hlength, -, hrest⟩ := Tlv.holds_field.mp hmem
        obtain ⟨hvalue, haddr⟩ := haddr
        simp only [Tlv.encode_field, List.length_cons, List.length_append] at hlen
        rw [parseReads_option (hcode ▸ x.code_ne_stop) (hcode ▸ x.code_ne_pad) (by omega),
          List.forall_mem_cons, List.forall_mem_cons, List.forall_mem_append, hlength, hcode]
        refine ⟨by omega, by omega, ?_, ih _ hrest (by omega) haddr⟩
        exact (valueReads_inside_iff (by omega)).mpr hvalue

/-- The parser ends, and every byte that it reads is inside the message. -/
def ParsesInside (g : ℕ → UInt8) : Prop :=
  (WellFounded fun st' st => turn g st = some st') ∧ ∀ a ∈ parseReads g optionsOffset, a < msgSize

/-- **When the parser stays inside the message.** It always ends; it reads only inside the message
exactly when the option area consists of pads and options with `END` behind them inside the area, and
the four bytes behind the header of each requested address and each server identifier are inside the
message as well. -/
theorem parse_inside_iff (g : ℕ → UInt8) : ParsesInside g ↔
    ∃ is : List OptionItem, Tlv.Holds g optionsOffset is ∧
      optionsOffset + (Tlv.encode is).length < msgSize ∧ AddressesInside optionsOffset is :=
  (and_iff_right (turn_wf g)).trans (reads_inside_iff g optionsOffset)

/-- Without `END` in the option area the parser leaves the message. -/
theorem not_parsesInside {g : ℕ → UInt8}
    (h : ∀ i, optionsOffset ≤ i → i < msgSize → g i ≠ 255) : ¬ ParsesInside g := by
  rintro ⟨-, hinside⟩
  obtain ⟨is, hmem, hlen, -⟩ := (reads_inside_iff g optionsOffset).mp hinside
  exact h _ (Nat.le_add_right _ _) hlen hmem.stop_byte

/-- A boot request with nothing but pads for options. -/
def padded (i : ℕ) : UInt8 :=
  match i with
  | 0 => 1
  | 1 => 1
  | 236 => 0x63
  | 237 => 0x82
  | 238 => 0x53
  | 239 => 0x63
  | _ => 0

/-- The parser runs through an option area of pads and looks behind it. -/
theorem pads_leave_message : ¬ ParsesInside padded := by
  refine not_parsesInside fun i _ _ => ?_
  unfold padded
  split <;> decide

end NuAgent.Dhcp
