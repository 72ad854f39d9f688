import CheatEngineLinux.Core.ValueIo

/-!
# Comparing a value of the target with a text

`compareTypedValue` (`src/core/value_io.cpp`): whether the value in the target is below, equal to or
above the one that a text stands for.

* `Target`: what a process says of itself and what can be read of it.
* `compareTypedValue`.

* **PROVED `compare_integer`**: integers are compared in the order of their sign.
-/

namespace CheatEngine.ValueIo

open AutoAssembler (Text)
open RecordFile

/-- A process: `machineAt` and `read`.  What is read lies in the address space. -/
structure Target where
  pointerWidth : ℕ
  byteOrder : ByteOrder
  read : ℕ → ℕ → Option (List UInt8)
  length_read : ∀ {address n bytes}, read address n = some bytes → bytes.length = n
  read_range : ∀ {address n bytes}, read address n = some bytes → address + n ≤ 2 ^ 64

def resolveTargetOptions (t : Target) (type : ValueType) (options : ValueIoOptions) :
    Except Text ValueIoOptions :=
  let options :=
    { options with pointerWidth := options.pointerWidthOverride.getD t.pointerWidth }
  if options.pointerWidthOverride.isSome ∧ options.pointerWidth ≠ 4 ∧ options.pointerWidth ≠ 8 then
    .error "Pointer width must be 4 or 8 bytes".toList
  else if type = .pointer ∧ options.pointerWidth ≠ 4 ∧ options.pointerWidth ≠ 8 then
    .error "Target pointer width is unknown; select it explicitly".toList
  else if type ≠ .byteArray ∧ type ≠ .string then
    let order := options.byteOrder.getD (if options.bigEndian then .big else t.byteOrder)
    if knownOrder order then .ok { options with byteOrder := some order }
    else .error "Target byte order is unknown or invalid; select it explicitly".toList
  else .ok options

/-- -1, 0 or 1 -/
def compareWords (left right : UInt64) : ℤ :=
  if left < right then -1 else if left > right then 1 else 0

/-- `bits ^ (1 << (count * 8 - 1))`: signed order as unsigned order. -/
def flipSign (count : ℕ) (bits : UInt64) : UInt64 :=
  bits ^^^ (1 <<< UInt64.ofNat (count * 8 - 1))

/-- The words of two values that a type has no order for, compared as floating-point numbers. -/
abbrev FloatOrder := ValueType → UInt64 → UInt64 → ℤ

def comparedWord (options : ValueIoOptions) (count : ℕ) (bytes : List UInt8) : UInt64 :=
  let bits := (Expression.decodeTargetUnsigned bytes
    (if bigEndianEncoding options then .big else .little)).getD 0
  if options.codec.active then options.codec.decode bits count else bits

/-- `compareTypedValue`.  A read that fails and one that is too short are not told apart. -/
def compareTypedValue (conv : Converters) (floats : FloatOrder) (t : Target) (address : UInt64)
    (type : ValueType) (value : Text) (options : ValueIoOptions) : Except Text ℤ :=
  match resolveTargetOptions t type options with
  | .error e => .error e
  | .ok options =>
    let count := widthOf type options
    if count = 0 then .error "Directional freeze requires a numeric type".toList
    else
      match encodeTypedValue conv type value options with
      | .error e => .error e
      | .ok desired =>
        if count - 1 > 2 ^ 64 - 1 - address.toNat then
          .error "The read range overflows the address space".toList
        else
          match t.read address.toNat count with
          | none => .error "Incomplete memory read".toList
          | some current =>
            let left := comparedWord options count current
            let right := comparedWord options count desired
            if isInteger type then
              if options.isSigned ∧ type ≠ .pointer then
                .ok (compareWords (flipSign count left) (flipSign count right))
              else .ok (compareWords left right)
            else .ok (floats type left right)

/-! ### Integers -/

def wordValue (isSigned : Bool) (count n : ℕ) : ℤ :=
  if isSigned then (n : ℤ).bmod (2 ^ (8 * count)) else n

/-- -1, 0 or 1 -/
def compareNumbers (x y : ℤ) : ℤ := if x < y then -1 else if x > y then 1 else 0

theorem compareNumbers_eq_iff {x y : ℤ} (below : Bool) :
    compareNumbers x y = (if below then -1 else 1) ↔ if below then x < y else x > y := by
  unfold compareNumbers
  cases below with
  | true =>
    simp only [if_true]
    split
    · simp_all
    · split <;> simp_all
  | false =>
    simp only [Bool.false_eq_true, if_false]
    split
    · simp only [reduceCtorEq, false_iff]
      omega
    · split <;> simp_all

theorem xor_two_pow {k n : ℕ} (h : n < 2 ^ k) : n ^^^ 2 ^ k = n + 2 ^ k := by
  apply Nat.eq_of_testBit_eq
  intro i
  rw [Nat.testBit_xor, Nat.testBit_two_pow, Nat.add_comm]
  rcases Nat.lt_trichotomy i k with hi | rfl | hi
  · rw [Nat.testBit_two_pow_add_gt hi]
    simp [hi.ne']
  · rw [Nat.testBit_two_pow_add_eq]
    simp [Nat.testBit_lt_two_pow h]
  · have hlow : n < 2 ^ i := h.trans (Nat.pow_lt_pow_right (by omega) hi)
    have hsum : 2 ^ k + n < 2 ^ i := by
      have hle := Nat.pow_le_pow_right (show 0 < 2 by omega) hi
      rw [Nat.pow_succ] at hle
      omega
    rw [Nat.testBit_lt_two_pow hlow, Nat.testBit_lt_two_pow hsum]
    simp [hi.ne]

theorem flipSign_toNat {count : ℕ} (hcount : ValueCodec.IsWidth count) {bits : UInt64}
    (h : bits.toNat < 2 ^ (8 * count)) :
    ((flipSign count bits).toNat : ℤ) = wordValue true count bits.toNat + 2 ^ (8 * count - 1) := by
  have hbit : (1 <<< UInt64.ofNat (count * 8 - 1) : UInt64).toNat = 2 ^ (8 * count - 1) := by
    rcases hcount with rfl | rfl | rfl | rfl <;> rfl
  rw [flipSign, UInt64.toNat_xor, hbit, wordValue, if_pos rfl]
  by_cases hlow : bits.toNat < 2 ^ (8 * count - 1)
  · rw [xor_two_pow hlow, Int.bmod_def]
    rcases hcount with rfl | rfl | rfl | rfl <;> simp at hlow ⊢ <;> omega
  · obtain ⟨m, hm⟩ := Nat.exists_eq_add_of_le' (Nat.le_of_not_lt hlow)
    have hsmall : m < 2 ^ (8 * count - 1) := by
      rcases hcount with rfl | rfl | rfl | rfl <;> simp at hm h ⊢ <;> omega
    rw [hm, ← xor_two_pow hsmall, Nat.xor_assoc, Nat.xor_self, Nat.xor_zero, xor_two_pow hsmall,
      Int.bmod_def]
    rcases hcount with rfl | rfl | rfl | rfl <;> simp at hsmall ⊢ <;> omega

theorem compareWords_eq {left right : UInt64} {x y k : ℤ} (hleft : (left.toNat : ℤ) = x + k)
    (hright : (right.toNat : ℤ) = y + k) : compareWords left right = compareNumbers x y := by
  unfold compareWords compareNumbers
  have hlt : left < right ↔ x < y := by rw [UInt64.lt_iff_toNat_lt]; omega
  have hgt : left > right ↔ x > y := by rw [gt_iff_lt, UInt64.lt_iff_toNat_lt]; omega
  simp only [hlt, hgt]

theorem comparedWord_toNat {options : ValueIoOptions} {count : ℕ} {bytes : List UInt8}
    (hcodec : options.codec.active = false) (hcount : ValueCodec.IsWidth count)
    (hlength : bytes.length = count) : (comparedWord options count bytes).toNat =
      leNat (orderedBytes bytes (bigEndianEncoding options)) := by
  have hne : bytes ≠ [] := by
    rintro rfl
    rcases hcount with h | h | h | h <;> rw [h] at hlength <;> cases hlength
  have hle : bytes.length ≤ 8 := by rcases hcount with h | h | h | h <;> omega
  obtain ⟨bits, hbits, hnat⟩ := decode_toNat hne hle (bigEndianEncoding options)
  rw [comparedWord, hbits, hcodec, ← hnat]
  rfl

theorem compare_unread {conv : Converters} {floats : FloatOrder} {t : Target} {address : UInt64}
    {type : ValueType} {value : Text} {options resolved : ValueIoOptions} {r : ℤ}
    (hresolved : resolveTargetOptions t type options = .ok resolved)
    (hread : t.read address.toNat (widthOf type resolved) = none) :
    compareTypedValue conv floats t address type value options ≠ .ok r := by
  unfold compareTypedValue
  rw [hresolved]
  dsimp only
  split
  · simp
  · split
    · simp
    · split
      · simp
      · rw [hread]
        simp

/-- **Integers are compared** as signed or unsigned numbers. -/
theorem compare_integer {conv : Converters} {floats : FloatOrder} {t : Target} {address : UInt64}
    {type : ValueType} {value : Text} {options resolved : ValueIoOptions}
    (hresolved : resolveTargetOptions t type options = .ok resolved)
    (h : IntegerType type resolved) (hcodec : resolved.codec.active = false)
    {desired current : List UInt8}
    (hencode : encodeTypedValue conv type value resolved = .ok desired)
    (hlength : desired.length = widthOf type resolved)
    (hread : t.read address.toNat (widthOf type resolved) = some current) :
    compareTypedValue conv floats t address type value options = .ok (compareNumbers
      (wordValue (resolved.isSigned && type != .pointer) (widthOf type resolved)
        (leNat (orderedBytes current (bigEndianEncoding resolved))))
      (wordValue (resolved.isSigned && type != .pointer) (widthOf type resolved)
        (leNat (orderedBytes desired (bigEndianEncoding resolved))))) := by
  have hwidth := h.width
  have hrange := t.read_range hread
  have hcurrent := t.length_read hread
  have hpos : widthOf type resolved ≠ 0 := by
    rcases hwidth with hw | hw | hw | hw <;> rw [hw] <;> decide
  have hlt (bytes : List UInt8) (hbytes : bytes.length = widthOf type resolved) :
      leNat (orderedBytes bytes (bigEndianEncoding resolved)) <
        2 ^ (8 * widthOf type resolved) := by
    have hordered : (orderedBytes bytes (bigEndianEncoding resolved)).length = bytes.length := by
      unfold orderedBytes
      split <;> simp
    have hlt := leNat_lt (orderedBytes bytes (bigEndianEncoding resolved))
    rwa [hordered, hbytes, show (256 : ℕ) = 2 ^ 8 from rfl, ← pow_mul] at hlt
  have hleft := comparedWord_toNat hcodec hwidth hcurrent
  have hright := comparedWord_toNat hcodec hwidth hlength
  unfold compareTypedValue
  rw [hresolved]
  dsimp only
  rw [if_neg hpos, hencode]
  dsimp only
  rw [if_neg (by omega), hread]
  dsimp only
  rw [if_pos h.1]
  by_cases hsigned : resolved.isSigned = true ∧ type ≠ .pointer
  · have hflag : (resolved.isSigned && type != .pointer) = true := by
      simpa using hsigned
    rw [if_pos hsigned, hflag]
    have hflipLeft := flipSign_toNat hwidth (hleft ▸ hlt current hcurrent)
    have hflipRight := flipSign_toNat hwidth (hright ▸ hlt desired hlength)
    rw [hleft] at hflipLeft
    rw [hright] at hflipRight
    rw [compareWords_eq hflipLeft hflipRight]
  · have hflag : (resolved.isSigned && type != .pointer) = false := by
      simpa using hsigned
    rw [if_neg hsigned, hflag, wordValue, wordValue, if_neg Bool.false_ne_true,
      if_neg Bool.false_ne_true,
      compareWords_eq (k := 0) (by rw [hleft, Int.add_zero]) (by rw [hright, Int.add_zero])]

end CheatEngine.ValueIo
