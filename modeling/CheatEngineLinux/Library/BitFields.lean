import Mathlib.Algebra.Group.Nat.Defs

/-!
# Fields of bits

Several fields share one register, and part of a register may be reserved.

* `Agree mask x y`: the values have the same bits under the mask.
* `field`, `read`: the bits of a field, and the value in it.

* **PROVED `agree_iff`**: values agree when the bits under the mask are the same.
* **PROVED `read_eq_of_bits`**: the value in a field is known from the bits of the field.
-/

namespace BitFields

variable {w : ℕ} {mask x y z : BitVec w}

def Agree (mask x y : BitVec w) : Prop := (x ^^^ y) &&& mask = 0#w

instance (mask x y : BitVec w) : Decidable (Agree mask x y) :=
  inferInstanceAs (Decidable ((x ^^^ y) &&& mask = 0#w))

theorem agree_iff :
    Agree mask x y ↔ ∀ i, mask.getLsbD i = true → x.getLsbD i = y.getLsbD i := by
  constructor
  · intro h i hi
    have hbit := congrArg (fun v => BitVec.getLsbD v i) h
    simp only [BitVec.getLsbD_and, BitVec.getLsbD_xor, BitVec.getLsbD_zero, hi] at hbit
    revert hbit
    cases x.getLsbD i <;> cases y.getLsbD i <;> simp
  · intro h
    refine BitVec.eq_of_getLsbD_eq fun i _ => ?_
    simp only [BitVec.getLsbD_and, BitVec.getLsbD_xor, BitVec.getLsbD_zero]
    cases hi : mask.getLsbD i with
    | false => simp
    | true => simp [h i hi]

theorem Agree.refl (mask x : BitVec w) : Agree mask x x :=
  agree_iff.2 fun _ _ => rfl

theorem Agree.of_eq (h : x = y) : Agree mask x y := h ▸ Agree.refl mask x

/-- Under a mask of ones nothing is left out. -/
theorem Agree.eq_of_allOnes (h : Agree (BitVec.allOnes w) x y) : x = y :=
  BitVec.eq_of_getLsbD_eq fun i hi => agree_iff.1 h i (by simp [hi])

/-! ### Fields -/

def field (w start width : ℕ) : BitVec w := BitVec.ofNat w (2 ^ width - 1) <<< start

@[simp] theorem getLsbD_field (start width i : ℕ) :
    (field w start width).getLsbD i = decide (i < w ∧ start ≤ i ∧ i < start + width) := by
  simp only [field, BitVec.getLsbD_shiftLeft, BitVec.getLsbD_ofNat, Nat.testBit_two_pow_sub_one]
  grind

/-- The value in a field. -/
def read (x : BitVec w) (start width : ℕ) : BitVec w :=
  (x >>> start) &&& BitVec.ofNat w (2 ^ width - 1)

theorem getLsbD_read (start width i : ℕ) :
    (read x start width).getLsbD i = (decide (i < width) && x.getLsbD (start + i)) := by
  simp only [read, BitVec.getLsbD_and, BitVec.getLsbD_ushiftRight, BitVec.getLsbD_ofNat,
    Nat.testBit_two_pow_sub_one]
  by_cases hw : i < w
  · simp [hw, Bool.and_comm]
  · have hout : x.getLsbD (start + i) = false := BitVec.getLsbD_of_ge _ _ (by omega)
    simp [hout]

theorem read_eq_of_bits {start width : ℕ} {v : BitVec w}
    (hbits : ∀ i < width, x.getLsbD (start + i) = v.getLsbD i)
    (hv : ∀ i, width ≤ i → v.getLsbD i = false) : read x start width = v := by
  refine BitVec.eq_of_getLsbD_eq fun i _ => ?_
  rw [getLsbD_read]
  by_cases hi : i < width
  · simp [hi, hbits i hi]
  · simp [hi, hv i (by omega)]

end BitFields
