import NuAgent.Lib.Overlay

/-!
# Tagged fields with a length byte

A format of fields with a code, a length byte and a value, among single pad bytes, with a stop byte
at the end. The code of a field is neither of the two special bytes, and its length fits the length
byte; both are part of the field, so that every list of items can be written.

`Holds` says that a memory holds a list of items from a position on. Its three equations follow the
bytes as a parser reads them; the rule for parsers, `Holds.foldl`, turns a loop that goes by the
bytes into a fold over the fields.
-/

namespace Tlv

open Memory

/-- A field. -/
structure Field (pad stop : UInt8) where
  code : UInt8
  value : List UInt8
  code_ne_pad : code ≠ pad
  code_ne_stop : code ≠ stop
  length_lt : value.length < 256

/-- A pad byte or a field. -/
inductive Item (pad stop : UInt8)
  | pad
  | field (x : Field pad stop)

variable {pad stop : UInt8}

/-- The bytes of an item. -/
def Item.bytes : Item pad stop → List UInt8
  | .pad => [pad]
  | .field x => x.code :: UInt8.ofNat x.value.length :: x.value

/-- The bytes of a list of items. -/
def encode (is : List (Item pad stop)) : List UInt8 := is.flatMap Item.bytes

/-- The fields among the items. -/
def fields : List (Item pad stop) → List (Field pad stop)
  | [] => []
  | .pad :: is => fields is
  | .field x :: is => x :: fields is

/-- The memory holds the items from `p` on, and the stop byte behind them. -/
def Holds (f : ℕ → UInt8) (p : ℕ) (is : List (Item pad stop)) : Prop :=
  window f p ((encode is).length + 1) = encode is ++ [stop]

section
variable {f : ℕ → UInt8} {p : ℕ} {is : List (Item pad stop)} {x : Field pad stop}

@[simp] theorem encode_nil : encode ([] : List (Item pad stop)) = [] := rfl

@[simp] theorem encode_pad : encode (.pad :: is) = pad :: encode is := rfl

@[simp] theorem encode_field : encode (.field x :: is) =
    x.code :: UInt8.ofNat x.value.length :: (x.value ++ encode is) := rfl

/-- The length byte of a field gives its length. -/
theorem Field.toNat_length (x : Field pad stop) :
    (UInt8.ofNat x.value.length).toNat = x.value.length :=
  Nat.mod_eq_of_lt x.length_lt

theorem holds_nil : Holds f p ([] : List (Item pad stop)) ↔ f p = stop := by
  rw [Holds, encode_nil, List.nil_append, List.length_nil, window_cons]
  simp [window]

theorem holds_pad : Holds f p (.pad :: is) ↔ f p = pad ∧ Holds f (p + 1) is := by
  rw [Holds, encode_pad, List.length_cons, window_cons, List.cons_append, List.cons.injEq, Holds]

theorem holds_field : Holds f p (.field x :: is) ↔
    f p = x.code ∧ (f (p + 1)).toNat = x.value.length ∧
      window f (p + 2) x.value.length = x.value ∧ Holds f (p + 2 + x.value.length) is := by
  have hlen : f (p + 1) = UInt8.ofNat x.value.length ↔ (f (p + 1)).toNat = x.value.length := by
    rw [← UInt8.toNat_inj, x.toNat_length]
  have hsplit : (encode (.field x :: is)).length + 1 =
      x.value.length + ((encode is).length + 1) + 1 + 1 := by
    simp only [encode_field, List.length_cons, List.length_append]
    omega
  rw [Holds, hsplit, window_cons, window_cons, encode_field, List.cons_append, List.cons_append,
    List.cons.injEq, List.cons.injEq, hlen, window_add, List.append_assoc, Holds]
  refine and_congr_right fun _ => and_congr_right fun _ => ?_
  exact List.append_eq_append_iff_of_size_eq_left length_window

/-- The field whose code is at `p`. -/
def fieldAt (f : ℕ → UInt8) (p : ℕ) (hpad : f p ≠ pad) (hstop : f p ≠ stop) : Field pad stop where
  code := f p
  value := window f (p + 2) (f (p + 1)).toNat
  code_ne_pad := hpad
  code_ne_stop := hstop
  length_lt := by
    rw [length_window]
    exact (f (p + 1)).toNat_lt

/-- A memory with items behind a field holds the field and the items. -/
theorem holds_fieldAt {hpad : f p ≠ pad} {hstop : f p ≠ stop} :
    Holds f p (.field (fieldAt f p hpad hstop) :: is) ↔
      Holds f (p + 2 + (f (p + 1)).toNat) is := by
  rw [holds_field]
  simp only [fieldAt, length_window, true_and]

/-- A memory to which the items and the stop byte were written holds them. -/
theorem holds_overlay : Holds (overlay f p (encode is ++ [stop])) p is := by
  have h : window (overlay f p (encode is ++ [stop])) p (encode is ++ [stop]).length = _ :=
    window_overlay
  rw [List.length_append] at h
  exact h

/-- The stop byte is behind the items. -/
theorem Holds.stop_byte (h : Holds f p is) : f (p + (encode is).length) = stop := by
  have hget : (window f p ((encode is).length + 1))[(encode is).length]? =
      some (f (p + (encode is).length)) := by
    rw [getElem?_window, if_pos (Nat.lt_succ_self _)]
  rw [h, List.getElem?_append_right (Nat.le_refl _), Nat.sub_self] at hget
  exact (Option.some.inj hget).symm

/-- The rule for parsers: a loop that ends at the stop byte, skips pads and acts on the fields is a
fold over the fields, if the items end before its bound. -/
theorem Holds.foldl {σ : Type*} (bound : ℕ) {loop : ℕ → σ → σ} (act : σ → UInt8 → ℕ → σ)
    {store : σ → Field pad stop → σ} (hstop : ∀ p s, f p = stop → loop p s = s)
    (hpad : ∀ p s, f p = pad → p < bound → loop p s = loop (p + 1) s)
    (hfield : ∀ p s, f p ≠ stop → f p ≠ pad → p < bound →
      loop p s = loop (p + 2 + (f (p + 1)).toNat) (act s (f p) (p + 2)))
    (hact : ∀ x ∈ fields is, ∀ p s, window f p x.value.length = x.value →
      act s x.code p = store s x)
    (h : Holds f p is) (hbound : p + (encode is).length < bound) (s : σ) :
    loop p s = (fields is).foldl store s := by
  induction is generalizing p s with
  | nil => exact hstop p s (holds_nil.mp h)
  | cons i is ih =>
    cases i with
    | pad =>
      obtain ⟨hbyte, hrest⟩ := holds_pad.mp h
      rw [encode_pad, List.length_cons] at hbound
      rw [hpad p s hbyte (by omega), ih hact hrest (by omega)]
      rfl
    | field x =>
      obtain ⟨hcode, hlen, hvalue, hrest⟩ := holds_field.mp h
      simp only [encode_field, List.length_cons, List.length_append] at hbound
      rw [hfield p s (hcode ▸ x.code_ne_stop) (hcode ▸ x.code_ne_pad) (by omega), hlen, hcode,
        hact x List.mem_cons_self (p + 2) s hvalue,
        ih (fun y hy => hact y (List.mem_cons_of_mem x hy)) hrest (by omega)]
      rfl

end

end Tlv
