import Mathlib.Data.List.Basic

/-!
# Cipher block chaining

Blocks of any type with an operation `mix` that undoes itself, and a permutation `enc` of the blocks
with inverse `dec`. Every block is mixed with the ciphertext before it, the first with a start value.
Deciphering undoes enciphering (`decrypt_encrypt`); it needs only ciphertext, so it can run from the
last block down (`decrypt_concat`).
-/

namespace Cbc

variable {α : Type*} (mix : α → α → α) (enc dec : α → α)

def encrypt (iv : α) : List α → List α
  | [] => []
  | b :: bs => enc (mix b iv) :: encrypt (enc (mix b iv)) bs

def decrypt (iv : α) : List α → List α
  | [] => []
  | c :: cs => mix (dec c) iv :: decrypt c cs

variable {mix enc dec}

/-- Blocks with property `P` come back, if `enc` and `mix` keep the property and can be undone on it. -/
theorem decrypt_encrypt {P : α → Prop} (hmix : ∀ b c, P b → P c → P (mix b c) ∧ mix (mix b c) c = b)
    (henc : ∀ b, P b → P (enc b) ∧ dec (enc b) = b) {iv : α} (hiv : P iv) {bs : List α}
    (hbs : ∀ b ∈ bs, P b) : decrypt mix dec iv (encrypt mix enc iv bs) = bs := by
  induction bs generalizing iv with
  | nil => rfl
  | cons b bs ih =>
    obtain ⟨hmixed, hback⟩ := hmix b iv (hbs b List.mem_cons_self) hiv
    obtain ⟨hcipher, hdec⟩ := henc _ hmixed
    rw [encrypt, decrypt, hdec, hback, ih hcipher fun b' hb' => hbs b' (List.mem_cons_of_mem b hb')]

/-- The last block is deciphered with the ciphertext before it. -/
theorem decrypt_concat (iv c : α) (cs : List α) :
    decrypt mix dec iv (cs ++ [c]) =
      decrypt mix dec iv cs ++ [mix (dec c) ((iv :: cs).getLast (List.cons_ne_nil iv cs))] := by
  induction cs generalizing iv with
  | nil => rfl
  | cons d cs ih => rw [List.cons_append, decrypt, ih, decrypt, List.cons_append,
      List.getLast_cons (List.cons_ne_nil d cs)]

/-- Chaining commutes with a change of representation. -/
theorem encrypt_map {β : Type*} {f : α → β} {P : α → Prop} {mix' : β → β → β} {enc' : β → β}
    (hmix : ∀ b c, P b → P c → P (mix b c) ∧ f (mix b c) = mix' (f b) (f c))
    (henc : ∀ b, P b → P (enc b) ∧ f (enc b) = enc' (f b)) {iv : α} (hiv : P iv) {bs : List α}
    (hbs : ∀ b ∈ bs, P b) :
    (encrypt mix enc iv bs).map f = encrypt mix' enc' (f iv) (bs.map f) := by
  induction bs generalizing iv with
  | nil => rfl
  | cons b bs ih =>
    obtain ⟨hmixed, hmixed'⟩ := hmix b iv (hbs b List.mem_cons_self) hiv
    obtain ⟨hcipher, hcipher'⟩ := henc _ hmixed
    rw [encrypt, List.map_cons, List.map_cons, encrypt, hcipher', hmixed',
      ih hcipher fun b' hb' => hbs b' (List.mem_cons_of_mem b hb'), hcipher', hmixed']

end Cbc
