import NuAgent.Dhcp.Server

/-!
# Parsing the options

`_ParseDhcpOptions` runs over the memory from the option area of the static `DhcpMsg` on. The memory
is a function from offsets into `DhcpMsg` to bytes, which goes on behind its end: the loop looks at
a code before it looks at the end, and the value of a last option may lie behind it. `walk` is the
loop without the values, which keeps only where the values are; `Walks` is its run as a relation,
which says what the run to a position depends on.

Reference: `_ParseDhcpOptions`.
-/

namespace NuAgent.Dhcp

/-- `sizeof(DHCP_MSG)`. -/
abbrev msgSize : ℕ := 548

/-- The offset of `Options` in `DHCP_MSG`. -/
abbrev optionsOffset : ℕ := 240

/-- `NST_MOVE_MEM` of four bytes into a word, lowest byte first. -/
def wordAt (g : ℕ → UInt8) (p : ℕ) : UInt32 :=
  UInt32.ofNat ((g p).toNat + 256 * (g (p + 1)).toNat + 65536 * (g (p + 2)).toNat +
    16777216 * (g (p + 3)).toNat)

section
variable {g g' : ℕ → UInt8} {p : ℕ}

theorem wordAt_toNat (g : ℕ → UInt8) (p : ℕ) :
    (wordAt g p).toNat = (g p).toNat + 256 * (g (p + 1)).toNat + 65536 * (g (p + 2)).toNat +
      16777216 * (g (p + 3)).toNat := by
  have h0 := (g p).toNat_lt
  have h1 := (g (p + 1)).toNat_lt
  have h2 := (g (p + 2)).toNat_lt
  have h3 := (g (p + 3)).toNat_lt
  exact UInt32.toNat_ofNat_of_lt' (by rw [UInt32.size]; omega)

/-- Words are equal when their bytes are. -/
theorem wordAt_eq_iff {p' : ℕ} :
    wordAt g p = wordAt g' p' ↔ ∀ j < 4, g (p + j) = g' (p' + j) := by
  constructor
  · intro h
    have hnat := congrArg UInt32.toNat h
    rw [wordAt_toNat, wordAt_toNat] at hnat
    have hlt : ∀ (f : ℕ → UInt8) i, (f i).toNat < 256 := fun f i => (f i).toNat_lt
    have h0 := hlt g p
    have h1 := hlt g (p + 1)
    have h2 := hlt g (p + 2)
    have h3 := hlt g (p + 3)
    have h0' := hlt g' p'
    have h1' := hlt g' (p' + 1)
    have h2' := hlt g' (p' + 2)
    have h3' := hlt g' (p' + 3)
    intro j hj
    apply UInt8.toNat_inj.mp
    interval_cases j
    · show (g p).toNat = (g' p').toNat
      omega
    · omega
    · omega
    · omega
  · intro h
    have h0 := h 0 (by decide)
    rw [Nat.add_zero, Nat.add_zero] at h0
    rw [wordAt, wordAt, h0, h 1 (by decide), h 2 (by decide), h 3 (by decide)]

end

/-- What `_ParseDhcpOptions` stores through its arguments, and what it returns. -/
structure Options where
  msgType : UInt8
  reqIpAddr : UInt32
  serverId : UInt32
  ret : UInt8

/-- What is stored for an option of the given code with its value at `p`. -/
def Options.store (r : Options) (g : ℕ → UInt8) (code : UInt8) (p : ℕ) : Options :=
  if code = 53 then { r with msgType := g p, ret := r.ret ||| 0x01 }
  else if code = 50 then { r with reqIpAddr := wordAt g p, ret := r.ret ||| 0x02 }
  else if code = 54 then { r with serverId := wordAt g p, ret := r.ret ||| 0x04 }
  else r

/-- The loop of `_ParseDhcpOptions` from the offset `p` on. -/
def parseLoop (g : ℕ → UInt8) (p : ℕ) (r : Options) : Options :=
  if g p ≠ 255 ∧ p < msgSize then
    if g p = 0 then parseLoop g (p + 1) r
    else parseLoop g (p + 2 + (g (p + 1)).toNat) (r.store g (g p) (p + 2))
  else r
termination_by msgSize - p

section
variable {g : ℕ → UInt8} {p : ℕ} {r : Options}

theorem parseLoop_end (h : ¬ (g p ≠ 255 ∧ p < msgSize)) : parseLoop g p r = r := by
  rw [parseLoop, if_neg h]

theorem parseLoop_pad (h : g p = 0) (hp : p < msgSize) :
    parseLoop g p r = parseLoop g (p + 1) r := by
  rw [parseLoop, if_pos ⟨by rw [h]; decide, hp⟩, if_pos h]

theorem parseLoop_option (hend : g p ≠ 255) (hpad : g p ≠ 0) (hp : p < msgSize) :
    parseLoop g p r = parseLoop g (p + 2 + (g (p + 1)).toNat) (r.store g (g p) (p + 2)) := by
  rw [parseLoop, if_pos ⟨hend, hp⟩, if_neg hpad]

end

/-- `_ParseDhcpOptions`, with the values its caller has initialised. -/
def parseDhcpOptions (g : ℕ → UInt8) : Options :=
  parseLoop g optionsOffset { msgType := 0xff, reqIpAddr := 0, serverId := 0, ret := 0 }

/-! ## Where the values are -/

/-- The offsets of the values that were stored last. -/
structure Offsets where
  msgType : Option ℕ := none
  reqIpAddr : Option ℕ := none
  serverId : Option ℕ := none

/-- The value of an option of the given code is at `p`. -/
def Offsets.record (o : Offsets) (code : UInt8) (p : ℕ) : Offsets :=
  if code = 53 then { o with msgType := some p }
  else if code = 50 then { o with reqIpAddr := some p }
  else if code = 54 then { o with serverId := some p }
  else o

/-- The loop without the values. -/
def walk (g : ℕ → UInt8) (p : ℕ) (o : Offsets) : Offsets :=
  if g p ≠ 255 ∧ p < msgSize then
    if g p = 0 then walk g (p + 1) o
    else walk g (p + 2 + (g (p + 1)).toNat) (o.record (g p) (p + 2))
  else o
termination_by msgSize - p

/-- The bits of the return value for the three options that were found. -/
def retBits (msgType reqIpAddr serverId : Bool) : UInt8 :=
  (if msgType then 0x01 else 0) ||| (if reqIpAddr then 0x02 else 0) |||
    (if serverId then 0x04 else 0)

/-- The values at given offsets. -/
def Offsets.values (o : Offsets) (g : ℕ → UInt8) : Options where
  msgType := o.msgType.elim 0xff g
  reqIpAddr := o.reqIpAddr.elim 0 (wordAt g)
  serverId := o.serverId.elim 0 (wordAt g)
  ret := retBits o.msgType.isSome o.reqIpAddr.isSome o.serverId.isSome

section
variable {g : ℕ → UInt8} {p q : ℕ} {o o' : Offsets}

theorem retBits_or (a b c : Bool) :
    retBits a b c ||| 0x01 = retBits true b c ∧ retBits a b c ||| 0x02 = retBits a true c ∧
      retBits a b c ||| 0x04 = retBits a b true := by
  revert a b c
  decide

theorem retBits_and_one (a b c : Bool) : retBits a b c &&& 0x01 = 0 ↔ a = false := by
  revert a b c
  decide

theorem Offsets.store_values (o : Offsets) (g : ℕ → UInt8) (code : UInt8) (p : ℕ) :
    (o.values g).store g code p = (o.record code p).values g := by
  obtain ⟨h1, h2, h4⟩ := retBits_or o.msgType.isSome o.reqIpAddr.isSome o.serverId.isSome
  simp only [Options.store, Offsets.record, Offsets.values, h1, h2, h4]
  split_ifs <;> rfl

/-- The loop stores the values at the offsets it finds. -/
theorem parseLoop_eq_walk (g : ℕ → UInt8) (p : ℕ) (o : Offsets) :
    parseLoop g p (o.values g) = (walk g p o).values g := by
  induction p, o using walk.induct g with
  | case1 p o h hpad ih =>
    rw [parseLoop, walk, if_pos h, if_pos h, if_pos hpad, if_pos hpad, ih]
  | case2 p o h hpad ih =>
    rw [parseLoop, walk, if_pos h, if_pos h, if_neg hpad, if_neg hpad, Offsets.store_values, ih]
  | case3 p o h => rw [parseLoop, walk, if_neg h, if_neg h]

theorem parseDhcpOptions_eq (g : ℕ → UInt8) :
    parseDhcpOptions g = (walk g optionsOffset {}).values g :=
  parseLoop_eq_walk g optionsOffset {}

/-- The bit of the return value that says whether there is a message type. -/
theorem Offsets.ret_eq_zero_iff (o : Offsets) (g : ℕ → UInt8) :
    (o.values g).ret &&& 0x01 = 0 ↔ o.msgType = none := by
  rw [Offsets.values, retBits_and_one, Option.isSome_eq_false_iff, Option.isNone_iff_eq_none]

theorem walk_end (h : g p = 255) : walk g p o = o := by
  rw [walk, if_neg fun h' => h'.1 h]

theorem walk_behind (h : msgSize ≤ p) : walk g p o = o := by
  rw [walk, if_neg fun h' => absurd h'.2 (Nat.not_lt.mpr h)]

theorem walk_pad (h : g p = 0) (hp : p < msgSize) : walk g p o = walk g (p + 1) o := by
  rw [walk, if_pos ⟨by rw [h]; decide, hp⟩, if_pos h]

theorem walk_option (hend : g p ≠ 255) (hpad : g p ≠ 0) (hp : p < msgSize) :
    walk g p o = walk g (p + 2 + (g (p + 1)).toNat) (o.record (g p) (p + 2)) := by
  rw [walk, if_pos ⟨hend, hp⟩, if_neg hpad]

/-! ## The run to a position -/

/-- The loop comes from `p` with the offsets `o` to `q` with the offsets `o'`. -/
inductive Walks (g : ℕ → UInt8) : ℕ → Offsets → ℕ → Offsets → Prop
  | refl {p : ℕ} {o : Offsets} : Walks g p o p o
  | pad {p q : ℕ} {o o' : Offsets} (hp : p < msgSize) (h : g p = 0) (hw : Walks g (p + 1) o q o') :
      Walks g p o q o'
  | option {p q : ℕ} {o o' : Offsets} (hp : p < msgSize) (hend : g p ≠ 255) (hpad : g p ≠ 0)
      (hw : Walks g (p + 2 + (g (p + 1)).toNat) (o.record (g p) (p + 2)) q o') : Walks g p o q o'

theorem Walks.le (h : Walks g p o q o') : p ≤ q := by
  induction h with
  | refl => exact Nat.le_refl _
  | pad _ _ _ ih => omega
  | option _ _ _ _ ih => omega

/-- What is found behind a position is found from there on. -/
theorem Walks.walk_eq (h : Walks g p o q o') : walk g p o = walk g q o' := by
  induction h with
  | refl => rfl
  | pad hp h _ ih => rw [walk_pad h hp, ih]
  | option hp hend hpad _ ih => rw [walk_option hend hpad hp, ih]

/-- The run to a position depends only on the bytes before it. -/
theorem Walks.congr {g' : ℕ → UInt8} (h : Walks g p o q o') (hag : ∀ i < q, g i = g' i) :
    Walks g' p o q o' := by
  induction h with
  | refl => exact .refl
  | @pad p q o o' hp h hw ih =>
    have hlt := hw.le
    exact .pad hp (by rw [← hag p (by omega), h]) (ih hag)
  | @option p q o o' hp hend hpad hw ih =>
    have hlt := hw.le
    have hcode := hag p (by omega)
    have hlen := hag (p + 1) (by omega)
    rw [hcode] at hend hpad
    have hrest := ih hag
    rw [hcode, hlen] at hrest
    exact .option hp hend hpad hrest

/-- A message type found on the way to a position lies before it or there. -/
theorem Walks.msgType_le (h : Walks g p o q o') {t : ℕ} (ht : o'.msgType = some t) :
    o.msgType = some t ∨ t ≤ q := by
  induction h with
  | refl => exact .inl ht
  | pad _ _ _ ih => exact ih ht
  | @option p q o o' hp hend hpad hw ih =>
    rcases ih ht with h | h
    · have hlt := hw.le
      simp only [Offsets.record] at h
      split_ifs at h
      · obtain rfl := Option.some.inj h
        exact .inr (by omega)
      · exact .inl h
      · exact .inl h
      · exact .inl h
    · exact .inr h

end

end NuAgent.Dhcp
