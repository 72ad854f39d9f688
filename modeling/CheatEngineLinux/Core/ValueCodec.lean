import Mathlib.Data.List.Basic
import Mathlib.Data.Nat.Bitwise

/-!
# Value codecs

`ValueCodec` (`src/core/value_codec.hpp`): the transform between the value that the user sees and
the one in memory, on the low 1, 2, 4 or 8 bytes of a word.

* `rotBits`: both rotations are one, by complementary counts.
* **PROVED `rotBits_rotBits`**: a rotation is undone by the complementary one.
* **PROVED `decode_encode`, `encode_decode`**: the two directions undo each other on masked words.
-/

namespace CheatEngine

inductive ValueCodec.Op
  | none | xor | add | rol | ror
  deriving Repr, DecidableEq

structure ValueCodec where
  op : ValueCodec.Op := .none
  /-- XOR key, ADD offset or rotate count. -/
  key : UInt64 := 0
  deriving Repr, DecidableEq

namespace ValueCodec

def maskFor (bytes : ℕ) : UInt64 :=
  if bytes ≥ 8 then 0xffffffffffffffff else (1 <<< UInt64.ofNat (bytes * 8)) - 1

/-- The count is an `unsigned`. -/
def rotl (v : UInt64) (n : UInt32) (bytes : ℕ) : UInt64 :=
  let w := bytes * 8
  let n := n.toNat % w
  let m := maskFor bytes
  let v := v &&& m
  if n ≠ 0 then ((v <<< UInt64.ofNat n) ||| (v >>> UInt64.ofNat (w - n))) &&& m else v

def rotr (v : UInt64) (n : UInt32) (bytes : ℕ) : UInt64 :=
  let w := bytes * 8
  let n := n.toNat % w
  let m := maskFor bytes
  let v := v &&& m
  if n ≠ 0 then ((v >>> UInt64.ofNat n) ||| (v <<< UInt64.ofNat (w - n))) &&& m else v

/-- From the value of the user to the one in memory. -/
def encode (codec : ValueCodec) (logical : UInt64) (bytes : ℕ) : UInt64 :=
  let m := maskFor bytes
  let v := logical &&& m
  match codec.op with
  | .none => v
  | .xor => (v ^^^ codec.key) &&& m
  | .add => (v + codec.key) &&& m
  | .rol => rotl v codec.key.toUInt32 bytes
  | .ror => rotr v codec.key.toUInt32 bytes

/-- From the value in memory to the one of the user. -/
def decode (codec : ValueCodec) (stored : UInt64) (bytes : ℕ) : UInt64 :=
  let m := maskFor bytes
  let v := stored &&& m
  match codec.op with
  | .none => v
  | .xor => (v ^^^ codec.key) &&& m
  | .add => (v - codec.key) &&& m
  | .rol => rotr v codec.key.toUInt32 bytes
  | .ror => rotl v codec.key.toUInt32 bytes

def active (codec : ValueCodec) : Bool := decide (codec.op ≠ .none)

/-! ### Masks -/

def IsWidth (bytes : ℕ) : Prop := bytes = 1 ∨ bytes = 2 ∨ bytes = 4 ∨ bytes = 8

variable {bytes : ℕ} {v : UInt64}

theorem toNat_maskFor (h : IsWidth bytes) : (maskFor bytes).toNat = 2 ^ (8 * bytes) - 1 := by
  rcases h with rfl | rfl | rfl | rfl <;> decide

theorem toNat_and_maskFor (h : IsWidth bytes) (v : UInt64) :
    (v &&& maskFor bytes).toNat = v.toNat % 2 ^ (8 * bytes) := by
  rw [UInt64.toNat_and, toNat_maskFor h, Nat.and_two_pow_sub_one_eq_mod]

theorem and_mask_and_mask (v : UInt64) :
    v &&& maskFor bytes &&& maskFor bytes = v &&& maskFor bytes := by
  rw [UInt64.and_assoc, UInt64.and_self]

theorem eq_of_testBit {x y : UInt64} (h : ∀ i, i < 64 → x.toNat.testBit i = y.toNat.testBit i) :
    x = y := by
  refine UInt64.toNat_inj.mp (Nat.eq_of_testBit_eq fun i => ?_)
  by_cases hi : i < 64
  · exact h i hi
  · have hle : 2 ^ 64 ≤ 2 ^ i := Nat.pow_le_pow_right (by omega) (by omega)
    rw [Nat.testBit_lt_two_pow (x.toNat_lt.trans_le hle),
      Nat.testBit_lt_two_pow (y.toNat_lt.trans_le hle)]

/-! ### Rotations -/

/-- Both rotations: the low `8 * bytes` bits of a masked word, moved up by `n`. -/
def rotBits (v : UInt64) (n bytes : ℕ) : UInt64 :=
  ((v <<< UInt64.ofNat n) ||| (v >>> UInt64.ofNat (8 * bytes - n))) &&& maskFor bytes

theorem IsWidth.le (h : IsWidth bytes) : 8 * bytes ≤ 64 := by
  rcases h with rfl | rfl | rfl | rfl <;> omega

theorem toNat_lt_of_masked (h : IsWidth bytes) (hv : v &&& maskFor bytes = v) :
    v.toNat < 2 ^ (8 * bytes) := by
  rw [← hv, toNat_and_maskFor h]
  exact Nat.mod_lt _ (Nat.two_pow_pos _)

theorem testBit_rotBits (h : IsWidth bytes) (hv : v &&& maskFor bytes = v) {n i : ℕ} (hpos : 0 < n)
    (hn : n < 8 * bytes) (hi : i < 64) : (rotBits v n bytes).toNat.testBit i =
      (decide (i < 8 * bytes) &&
        v.toNat.testBit (if n ≤ i then i - n else i + 8 * bytes - n)) := by
  have hle := h.le
  have hlt := toNat_lt_of_masked h hv
  unfold rotBits
  rw [toNat_and_maskFor h, Nat.testBit_mod_two_pow, UInt64.toNat_or, Nat.testBit_or,
    UInt64.toNat_shiftLeft, UInt64.toNat_shiftRight, UInt64.toNat_ofNat_of_lt' (by
      change n < 2 ^ 64; omega), UInt64.toNat_ofNat_of_lt' (by change _ < 2 ^ 64; omega),
    Nat.mod_eq_of_lt (show n < 64 by omega), Nat.mod_eq_of_lt (show 8 * bytes - n < 64 by omega),
    Nat.testBit_mod_two_pow, Nat.testBit_shiftLeft, Nat.testBit_shiftRight]
  by_cases hw : i < 8 * bytes
  · by_cases hni : n ≤ i
    · have hhigh : v.toNat.testBit (8 * bytes - n + i) = false :=
        Nat.testBit_lt_two_pow (hlt.trans_le (Nat.pow_le_pow_right (by omega) (by omega)))
      simp [hi, hw, hni, hhigh]
    · rw [if_neg hni, show i + 8 * bytes - n = 8 * bytes - n + i by omega]
      simp [hni]
  · simp [hw]

/-- A rotation is undone by the complementary one. -/
theorem rotBits_rotBits (h : IsWidth bytes) (hv : v &&& maskFor bytes = v) {n : ℕ} (hpos : 0 < n)
    (hn : n < 8 * bytes) : rotBits (rotBits v n bytes) (8 * bytes - n) bytes = v := by
  have hlt := toNat_lt_of_masked h hv
  have hmasked : rotBits v n bytes &&& maskFor bytes = rotBits v n bytes := and_mask_and_mask _
  refine eq_of_testBit fun i hi => ?_
  have hle := h.le
  rw [testBit_rotBits h hmasked (by omega) (by omega) hi]
  by_cases hw : i < 8 * bytes
  · rw [decide_eq_true hw, Bool.true_and]
    split
    · rw [testBit_rotBits h hv hpos hn (by omega), decide_eq_true (by omega), Bool.true_and,
        if_neg (by omega)]
      congr 1
      omega
    · rw [testBit_rotBits h hv hpos hn (by omega), decide_eq_true (by omega), Bool.true_and,
        if_pos (by omega)]
      congr 1
      omega
  · rw [decide_eq_false hw, Bool.false_and, Nat.testBit_lt_two_pow]
    exact hlt.trans_le (Nat.pow_le_pow_right (by omega) (by omega))

theorem rotl_eq (v : UInt64) (n : UInt32) (bytes : ℕ) :
    rotl v n bytes = if n.toNat % (8 * bytes) = 0 then v &&& maskFor bytes
      else rotBits (v &&& maskFor bytes) (n.toNat % (8 * bytes)) bytes := by
  unfold rotl rotBits
  rw [Nat.mul_comm bytes 8]
  by_cases h : n.toNat % (8 * bytes) = 0 <;> simp [h]

theorem rotr_eq (v : UInt64) (n : UInt32) (bytes : ℕ) (hbytes : 0 < bytes) :
    rotr v n bytes = if n.toNat % (8 * bytes) = 0 then v &&& maskFor bytes
      else rotBits (v &&& maskFor bytes) (8 * bytes - n.toNat % (8 * bytes)) bytes := by
  have hlt : n.toNat % (8 * bytes) < 8 * bytes := Nat.mod_lt _ (by omega)
  unfold rotr rotBits
  rw [Nat.mul_comm bytes 8, Nat.sub_sub_self (by omega), UInt64.or_comm]
  by_cases h : n.toNat % (8 * bytes) = 0 <;> simp [h]

theorem rotr_rotl (h : IsWidth bytes) (v : UInt64) (n : UInt32) :
    rotr (rotl v n bytes) n bytes = v &&& maskFor bytes := by
  have hpos : 0 < bytes := by rcases h with rfl | rfl | rfl | rfl <;> omega
  have hlt : n.toNat % (8 * bytes) < 8 * bytes := Nat.mod_lt _ (by omega)
  rw [rotr_eq _ _ _ hpos, rotl_eq]
  by_cases hn : n.toNat % (8 * bytes) = 0
  · rw [if_pos hn, if_pos hn, and_mask_and_mask]
  · rw [if_neg hn, if_neg hn, show rotBits _ _ bytes &&& maskFor bytes = rotBits _ _ bytes from
      and_mask_and_mask _]
    exact rotBits_rotBits h (and_mask_and_mask v) (by omega) hlt

theorem rotl_rotr (h : IsWidth bytes) (v : UInt64) (n : UInt32) :
    rotl (rotr v n bytes) n bytes = v &&& maskFor bytes := by
  have hpos : 0 < bytes := by rcases h with rfl | rfl | rfl | rfl <;> omega
  have hlt : n.toNat % (8 * bytes) < 8 * bytes := Nat.mod_lt _ (by omega)
  rw [rotr_eq _ _ _ hpos, rotl_eq]
  by_cases hn : n.toNat % (8 * bytes) = 0
  · rw [if_pos hn, if_pos hn, and_mask_and_mask]
  · have hback := @rotBits_rotBits bytes _ h (and_mask_and_mask v)
      (8 * bytes - n.toNat % (8 * bytes)) (by omega) (by omega)
    rw [Nat.sub_sub_self (by omega)] at hback
    rw [if_neg hn, if_neg hn, show rotBits _ _ bytes &&& maskFor bytes = rotBits _ _ bytes from
      and_mask_and_mask _]
    exact hback

theorem rotl_and_mask (v : UInt64) (n : UInt32) (bytes : ℕ) :
    rotl (v &&& maskFor bytes) n bytes = rotl v n bytes := by
  rw [rotl_eq, rotl_eq, and_mask_and_mask]

theorem rotr_and_mask (v : UInt64) (n : UInt32) (bytes : ℕ) :
    rotr (v &&& maskFor bytes) n bytes = rotr v n bytes := by
  unfold rotr
  simp only [and_mask_and_mask]

/-! ### Both directions -/

theorem add_sub_masked (h : IsWidth bytes) (v key : UInt64) :
    (((v &&& maskFor bytes) + key) &&& maskFor bytes) - key &&& maskFor bytes =
      v &&& maskFor bytes := by
  refine UInt64.toNat_inj.mp ?_
  rw [toNat_and_maskFor h, UInt64.toNat_sub, toNat_and_maskFor h, UInt64.toNat_add,
    toNat_and_maskFor h]
  have hk := key.toNat_lt
  rcases h with rfl | rfl | rfl | rfl <;> simp only [Nat.reducePow, Nat.reduceMul] <;> omega

theorem sub_add_masked (h : IsWidth bytes) (v key : UInt64) :
    (((v &&& maskFor bytes) - key) &&& maskFor bytes) + key &&& maskFor bytes =
      v &&& maskFor bytes := by
  refine UInt64.toNat_inj.mp ?_
  rw [toNat_and_maskFor h, UInt64.toNat_add, toNat_and_maskFor h, UInt64.toNat_sub,
    toNat_and_maskFor h]
  have hk := key.toNat_lt
  rcases h with rfl | rfl | rfl | rfl <;> simp only [Nat.reducePow, Nat.reduceMul] <;> omega

theorem xor_xor_masked (m v key : UInt64) :
    (((v &&& m) ^^^ key) &&& m &&& m ^^^ key) &&& m = v &&& m := by
  refine eq_of_testBit fun i _ => ?_
  simp only [UInt64.toNat_and, UInt64.toNat_xor, Nat.testBit_and, Nat.testBit_xor]
  cases v.toNat.testBit i <;> cases m.toNat.testBit i <;> cases key.toNat.testBit i <;> rfl

theorem decode_and_mask (codec : ValueCodec) (v : UInt64) (bytes : ℕ) :
    codec.decode (v &&& maskFor bytes) bytes = codec.decode v bytes := by
  unfold decode
  simp only [and_mask_and_mask]

theorem encode_and_mask (codec : ValueCodec) (v : UInt64) (bytes : ℕ) :
    codec.encode (v &&& maskFor bytes) bytes = codec.encode v bytes := by
  unfold encode
  simp only [and_mask_and_mask]

theorem decode_encode (h : IsWidth bytes) (codec : ValueCodec) (v : UInt64) :
    codec.decode (codec.encode v bytes) bytes = v &&& maskFor bytes := by
  obtain ⟨op, key⟩ := codec
  cases op with
  | none => exact and_mask_and_mask _
  | xor => exact xor_xor_masked _ _ _
  | add =>
    change ((((v &&& maskFor bytes) + key) &&& maskFor bytes) &&& maskFor bytes) - key &&& _ = _
    rw [and_mask_and_mask]
    exact add_sub_masked h v key
  | rol =>
    change rotr (rotl (v &&& maskFor bytes) _ bytes &&& maskFor bytes) _ bytes = _
    rw [rotr_and_mask, rotl_and_mask, rotr_rotl h]
  | ror =>
    change rotl (rotr (v &&& maskFor bytes) _ bytes &&& maskFor bytes) _ bytes = _
    rw [rotr_and_mask, rotl_and_mask, rotl_rotr h]

theorem encode_decode (h : IsWidth bytes) (codec : ValueCodec) (v : UInt64) :
    codec.encode (codec.decode v bytes) bytes = v &&& maskFor bytes := by
  obtain ⟨op, key⟩ := codec
  cases op with
  | none => exact and_mask_and_mask _
  | xor => exact xor_xor_masked _ _ _
  | add =>
    change ((((v &&& maskFor bytes) - key) &&& maskFor bytes) &&& maskFor bytes) + key &&& _ = _
    rw [and_mask_and_mask]
    exact sub_add_masked h v key
  | rol =>
    change rotl (rotr (v &&& maskFor bytes) _ bytes &&& maskFor bytes) _ bytes = _
    rw [rotr_and_mask, rotl_and_mask, rotl_rotr h]
  | ror =>
    change rotr (rotl (v &&& maskFor bytes) _ bytes &&& maskFor bytes) _ bytes = _
    rw [rotr_and_mask, rotl_and_mask, rotr_rotl h]

end ValueCodec

end CheatEngine
