import NuAgent.Dhcp.Options
import NuAgent.Lib.Search
import NuAgent.Lib.Tlv

/-!
# The option grammar

An option area is a list of pad bytes and of options with a code, a length byte and a value, and
`DHCP_OPTION_ID_END` behind it. On an area that is written so the parser stores the value of the
last option of each kind that it knows, whatever the other values look like and whatever stands
behind the end.
-/

namespace NuAgent.Dhcp

open Memory

/-- An item of an option area; `DHCP_OPTION_ID_PAD` is 0 and `DHCP_OPTION_ID_END` is 255. -/
abbrev OptionItem := Tlv.Item 0 255

/-- An option of an option area. -/
abbrev OptionField := Tlv.Field 0 255

/-! ## The values that are stored -/

/-- The options that the parser knows have the length that it takes for granted. -/
structure WellFormed (x : OptionField) : Prop where
  msgType : x.code = 53 → x.value.length = 1
  address : x.code = 50 ∨ x.code = 54 → x.value.length = 4

/-- The value of the last option with the given code. -/
def lastValue (code : UInt8) (l : List OptionField) : Option (List UInt8) :=
  (l.reverse.find? fun x => decide (x.code = code)).map Tlv.Field.value

/-- A value as a memory of its own. -/
def valueMemory (v : List UInt8) : ℕ → UInt8 := fun i => v.getD i 0

/-- What is stored for an option. -/
def Options.storeField (r : Options) (x : OptionField) : Options :=
  r.store (valueMemory x.value) x.code 0

section
variable {g : ℕ → UInt8} {p : ℕ} {x : OptionField}

theorem valueMemory_of_window (h : window g p x.value.length = x.value) {i : ℕ}
    (hi : i < x.value.length) : valueMemory x.value i = g (p + i) := by
  have hget : (window g p x.value.length)[i]? = _ := getElem?_window i
  rw [h, if_pos hi] at hget
  rw [valueMemory, List.getD_eq_getElem?_getD, hget, Option.getD_some]

/-- A well-formed option is stored as its value says. -/
theorem store_of_window (hx : WellFormed x) (h : window g p x.value.length = x.value)
    (r : Options) : r.store g x.code p = r.storeField x := by
  have hword : x.code = 50 ∨ x.code = 54 → wordAt g p = wordAt (valueMemory x.value) 0 := by
    intro hcode
    refine wordAt_eq_iff.mpr fun j hj => ?_
    rw [Nat.zero_add, valueMemory_of_window h (by rw [hx.address hcode]; exact hj)]
  unfold Options.storeField Options.store
  split_ifs with h53 h50 h54
  · have hbyte := valueMemory_of_window h (i := 0) (by rw [hx.msgType h53]; decide)
    rw [hbyte]
    rfl
  · rw [hword (.inl h50)]
  · rw [hword (.inr h54)]
  · rfl

/-- On a well-formed area the parser stores the options one after the other. -/
theorem parseLoop_eq_foldl {is : List OptionItem} (hwf : ∀ x ∈ Tlv.fields is, WellFormed x)
    (h : Tlv.Holds g p is) (hlen : p + (Tlv.encode is).length < msgSize) (r : Options) :
    parseLoop g p r = (Tlv.fields is).foldl Options.storeField r := by
  refine h.foldl msgSize (fun r code p => r.store g code p) ?_ ?_ ?_
    (fun x hx p r hvalue => store_of_window (hwf x hx) hvalue r) hlen r
  · exact fun p r hend => parseLoop_end fun h' => h'.1 hend
  · exact fun p r hpad hp => parseLoop_pad hpad hp
  · exact fun p r hend hpad hp => parseLoop_option hend hpad hp

end

/-! ## The last option of each kind -/

theorem storeField_msgType (r : Options) (x : OptionField) :
    (r.storeField x).msgType = if x.code = 53 then valueMemory x.value 0 else r.msgType := by
  unfold Options.storeField Options.store
  split_ifs <;> rfl

theorem storeField_reqIpAddr (r : Options) (x : OptionField) :
    (r.storeField x).reqIpAddr =
      if x.code = 50 then wordAt (valueMemory x.value) 0 else r.reqIpAddr := by
  have h53 : x.code = 50 → x.code ≠ 53 := fun h => by rw [h]; decide
  unfold Options.storeField Options.store
  split_ifs with h h'
  · exact absurd h (h53 h')
  all_goals rfl

theorem storeField_serverId (r : Options) (x : OptionField) :
    (r.storeField x).serverId =
      if x.code = 54 then wordAt (valueMemory x.value) 0 else r.serverId := by
  have hne : x.code = 54 → x.code ≠ 53 ∧ x.code ≠ 50 := fun h => by rw [h]; decide
  unfold Options.storeField Options.store
  split_ifs with h53 h54 h50 h54
  · exact absurd h53 (hne h54).1
  · rfl
  · exact absurd h50 (hne h54).2
  all_goals rfl

/-- What the last option of a kind stores stays. -/
theorem foldl_storeField {β : Type*} {f : Options → β} {code : UInt8} {v : List UInt8 → β}
    (hf : ∀ r x, f (r.storeField x) = if x.code = code then v x.value else f r)
    (l : List OptionField) (r : Options) :
    f (l.foldl Options.storeField r) = (lastValue code l).elim (f r) v := by
  rw [lastValue, Option.elim_map]
  exact Search.foldl_overwrite hf l r

/-- There is an option with the code. -/
def Occurs (code : UInt8) (l : List OptionField) : Prop := ∃ x ∈ l, x.code = code

/-- The bits of the options that were found. -/
theorem foldl_ret (l : List OptionField) {r : Options} {a b c : Bool}
    (hr : r.ret = retBits a b c) : (l.foldl Options.storeField r).ret =
      retBits (a || l.any fun x => x.code == 53) (b || l.any fun x => x.code == 50)
        (c || l.any fun x => x.code == 54) := by
  induction l generalizing r a b c with
  | nil =>
    simp only [List.foldl_nil, List.any_nil, Bool.or_false]
    exact hr
  | cons x l ih =>
    have hx : (r.storeField x).ret =
        retBits (a || x.code == 53) (b || x.code == 50) (c || x.code == 54) := by
      obtain ⟨h1, h2, h4⟩ := retBits_or a b c
      unfold Options.storeField Options.store
      split_ifs with h53 h50 h54
      · simp [hr, h1, h53]
      · simp [hr, h2, h50]
      · simp [hr, h4, h54]
      · simp only [hr, beq_false_of_ne h53, beq_false_of_ne h50, beq_false_of_ne h54, Bool.or_false]
    rw [List.foldl_cons, ih hx]
    simp only [List.any_cons, Bool.or_assoc]

theorem retBits_bits (a b c : Bool) : (retBits a b c &&& 0x01 ≠ 0 ↔ a = true) ∧
    (retBits a b c &&& 0x02 ≠ 0 ↔ b = true) ∧ (retBits a b c &&& 0x04 ≠ 0 ↔ c = true) := by
  revert a b c
  decide

theorem any_iff_occurs (code : UInt8) (l : List OptionField) :
    (l.any fun x => x.code == code) = true ↔ Occurs code l := by
  simp only [List.any_eq_true, beq_iff_eq, Occurs]

/-- The option is one that the parser stores. -/
def Stored (x : OptionField) : Bool := x.code == 53 || x.code == 50 || x.code == 54

/-- The other options do not matter. -/
theorem foldl_filter_stored (l : List OptionField) (r : Options) :
    (l.filter Stored).foldl Options.storeField r = l.foldl Options.storeField r := by
  rw [List.foldl_filter]
  congr 1
  funext r x
  split_ifs with h
  · rfl
  · simp only [Stored, Bool.or_eq_true, beq_iff_eq, not_or] at h
    rw [Options.storeField, Options.store, if_neg h.1.1, if_neg h.1.2, if_neg h.2]

/-- **The parser is right on the grammar.** For pads and options, those that it knows of the right
length, with `END` behind them inside the option area, the parser stores the value of the last
option of each kind, leaves an output without option as it was, and returns the bits of the options
that occur. It does the same on every memory with the same options of these kinds. -/
theorem parse_grammar (g : ℕ → UInt8) (is : List OptionItem)
    (hwf : ∀ x ∈ Tlv.fields is, WellFormed x) (hmem : Tlv.Holds g optionsOffset is)
    (hlen : (Tlv.encode is).length < 308) (msgType : UInt8) (reqIpAddr serverId : UInt32) :
    let l := Tlv.fields is
    let r := parseLoop g optionsOffset ⟨msgType, reqIpAddr, serverId, 0⟩
    (r.msgType = (lastValue 53 l).elim msgType fun v => valueMemory v 0) ∧
      (r.reqIpAddr = (lastValue 50 l).elim reqIpAddr fun v => wordAt (valueMemory v) 0) ∧
      (r.serverId = (lastValue 54 l).elim serverId fun v => wordAt (valueMemory v) 0) ∧
      (r.ret &&& 0x01 ≠ 0 ↔ Occurs 53 l) ∧ (r.ret &&& 0x02 ≠ 0 ↔ Occurs 50 l) ∧
      (r.ret &&& 0x04 ≠ 0 ↔ Occurs 54 l) ∧
      ∀ (g' : ℕ → UInt8) (is' : List OptionItem), (∀ x ∈ Tlv.fields is', WellFormed x) →
        Tlv.Holds g' optionsOffset is' → (Tlv.encode is').length < 308 →
        (Tlv.fields is').filter Stored = l.filter Stored →
        parseLoop g' optionsOffset ⟨msgType, reqIpAddr, serverId, 0⟩ = r := by
  intro l r
  have hr : r = l.foldl Options.storeField ⟨msgType, reqIpAddr, serverId, 0⟩ :=
    parseLoop_eq_foldl hwf hmem (show 240 + _ < 548 by omega) _
  have hret : r.ret = _ := hr ▸ foldl_ret l (a := false) (b := false) (c := false) rfl
  obtain ⟨h1, h2, h4⟩ := retBits_bits (false || l.any fun x => x.code == 53)
    (false || l.any fun x => x.code == 50) (false || l.any fun x => x.code == 54)
  simp only [Bool.false_or, any_iff_occurs] at h1 h2 h4 hret
  rw [hret]
  refine ⟨?_, ?_, ?_, h1, h2, h4, fun g' is' hwf' hmem' hlen' hsame => ?_⟩
  · rw [hr]
    exact foldl_storeField storeField_msgType l _
  · rw [hr]
    exact foldl_storeField storeField_reqIpAddr l _
  · rw [hr]
    exact foldl_storeField storeField_serverId l _
  · rw [parseLoop_eq_foldl hwf' hmem' (show 240 + _ < 548 by omega), hr, ← foldl_filter_stored,
      hsame, foldl_filter_stored]

/-- The items of `parse_grammar_boot`: a host name that looks like a `REQUEST` with the end behind
it, a pad and the message type `DISCOVER`. -/
def hostName : List OptionItem :=
  [.field ⟨12, [53, 1, 3, 255], by decide, by decide, by decide⟩, .pad,
    .field ⟨53, [1], by decide, by decide, by decide⟩]

/-- `parse_grammar` on a host name that looks like other options. -/
theorem parse_grammar_boot :
    (parseLoop (overlay (fun _ => 0) optionsOffset (Tlv.encode hostName ++ [255]))
      optionsOffset ⟨0xff, 0, 0, 0⟩).msgType = 1 := by
  have hwf : ∀ x ∈ Tlv.fields hostName, WellFormed x := by
    intro x hx
    simp only [hostName, Tlv.fields, List.mem_cons, List.not_mem_nil, or_false] at hx
    rcases hx with rfl | rfl
    · exact ⟨by decide, by decide⟩
    · exact ⟨by decide, by decide⟩
  exact (parse_grammar _ hostName hwf Tlv.holds_overlay (by decide) 0xff 0 0).1

end NuAgent.Dhcp
