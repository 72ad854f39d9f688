import Mathlib.Data.Nat.Notation

/-!
# Conditional jumps

`conditionalJumpTaken` and `conditionalArm64JumpTaken` (`src/arch/cpu_flags.hpp`): whether the jump
that a debugger stands at is taken, from the flags alone.

* `jumpComparisons`, `arm64Comparisons`: what the jumps after a comparison are for.
* `Compared`, `ComparedArm64`: the flags after a comparison, a subtraction whose result is dropped.
* **PROVED `jumps_compare`**: after a comparison every such jump is taken where it holds.
-/

namespace CheatEngine.CpuFlags

/-! ### The predictions -/

/-- `none` for all that is not a jump that tests flags. -/
def conditionalJumpTaken (m : String) (rflags : BitVec 64) : Option Bool :=
  let cf := rflags.getLsbD 0
  let pf := rflags.getLsbD 2
  let zf := rflags.getLsbD 6
  let sf := rflags.getLsbD 7
  let of := rflags.getLsbD 11
  if m == "jmp" then some true
  else if m == "je" || m == "jz" then some zf
  else if m == "jne" || m == "jnz" then some !zf
  else if m == "js" then some sf
  else if m == "jns" then some !sf
  else if m == "jo" then some of
  else if m == "jno" then some !of
  else if m == "jp" || m == "jpe" then some pf
  else if m == "jnp" || m == "jpo" then some !pf
  else if m == "jc" || m == "jb" || m == "jnae" then some cf
  else if m == "jnc" || m == "jae" || m == "jnb" then some !cf
  else if m == "ja" || m == "jnbe" then some (!cf && !zf)
  else if m == "jbe" || m == "jna" then some (cf || zf)
  else if m == "jg" || m == "jnle" then some (!zf && sf == of)
  else if m == "jge" || m == "jnl" then some (sf == of)
  else if m == "jl" || m == "jnge" then some (sf != of)
  else if m == "jle" || m == "jng" then some (zf || sf != of)
  else none

def conditionalArm64JumpTaken (mnemonic : String) (pstate : BitVec 64) : Option Bool :=
  let n := pstate.getLsbD 31
  let z := pstate.getLsbD 30
  let c := pstate.getLsbD 29
  let v := pstate.getLsbD 28
  if mnemonic == "b.eq" then some z
  else if mnemonic == "b.ne" then some !z
  else if mnemonic == "b.cs" || mnemonic == "b.hs" then some c
  else if mnemonic == "b.cc" || mnemonic == "b.lo" then some !c
  else if mnemonic == "b.mi" then some n
  else if mnemonic == "b.pl" then some !n
  else if mnemonic == "b.vs" then some v
  else if mnemonic == "b.vc" then some !v
  else if mnemonic == "b.hi" then some (c && !z)
  else if mnemonic == "b.ls" then some (!c || z)
  else if mnemonic == "b.ge" then some (n == v)
  else if mnemonic == "b.lt" then some (n != v)
  else if mnemonic == "b.gt" then some (!z && n == v)
  else if mnemonic == "b.le" then some (z || n != v)
  else if mnemonic == "b" || mnemonic == "b.al" || mnemonic == "b.nv" then some true
  else none

/-! ### Comparisons -/

inductive Comparison
  | eq | ne
  | below | belowEq | above | aboveEq
  | less | lessEq | greater | greaterEq
  deriving Repr, DecidableEq

/-- Below and above are without a sign, less and greater with one. -/
def Comparison.holds {w : ℕ} (a b : BitVec w) : Comparison → Bool
  | .eq => a == b
  | .ne => a != b
  | .below => a.ult b
  | .belowEq => a.ule b
  | .above => b.ult a
  | .aboveEq => b.ule a
  | .less => a.slt b
  | .lessEq => a.sle b
  | .greater => b.slt a
  | .greaterEq => b.sle a

def jumpComparisons : List (String × Comparison) :=
  [("je", .eq), ("jz", .eq), ("jne", .ne), ("jnz", .ne),
    ("jb", .below), ("jc", .below), ("jnae", .below),
    ("jbe", .belowEq), ("jna", .belowEq), ("ja", .above), ("jnbe", .above),
    ("jae", .aboveEq), ("jnc", .aboveEq), ("jnb", .aboveEq),
    ("jl", .less), ("jnge", .less), ("jle", .lessEq), ("jng", .lessEq),
    ("jg", .greater), ("jnle", .greater), ("jge", .greaterEq), ("jnl", .greaterEq)]

def arm64Comparisons : List (String × Comparison) :=
  [("b.eq", .eq), ("b.ne", .ne), ("b.lo", .below), ("b.cc", .below), ("b.ls", .belowEq),
    ("b.hi", .above), ("b.hs", .aboveEq), ("b.cs", .aboveEq), ("b.lt", .less), ("b.le", .lessEq),
    ("b.gt", .greater), ("b.ge", .greaterEq)]

variable {w : ℕ} {a b : BitVec w}

/-- The flags after `cmp a, b` on x86: the carry is the borrow. -/
structure Compared (a b : BitVec w) (rflags : BitVec 64) : Prop where
  carry : rflags.getLsbD 0 = a.ult b
  zero : rflags.getLsbD 6 = (a == b)
  sign : rflags.getLsbD 7 = (a - b).msb
  overflow : rflags.getLsbD 11 = a.ssubOverflow b

/-- The flags after `cmp a, b` on AArch64: the carry is set where nothing is borrowed. -/
structure ComparedArm64 (a b : BitVec w) (pstate : BitVec 64) : Prop where
  negative : pstate.getLsbD 31 = (a - b).msb
  zero : pstate.getLsbD 30 = (a == b)
  carry : pstate.getLsbD 29 = !a.ult b
  overflow : pstate.getLsbD 28 = a.ssubOverflow b

/-- The difference of two numbers has the wrong sign exactly where it overflows. -/
theorem slt_eq_flags (a b : BitVec w) : a.slt b = ((a - b).msb != a.ssubOverflow b) := by
  cases h : a.ssubOverflow b with
  | false =>
    have hdiff : (a - b).toInt = a.toInt - b.toInt :=
      BitVec.toInt_sub_of_not_ssubOverflow (Bool.eq_false_iff.mp h)
    rw [Bool.bne_false, BitVec.msb_eq_toInt, hdiff, BitVec.slt_eq_decide]
    exact decide_eq_decide.mpr (by omega)
  | true =>
    -- the signs of the operands differ, and the difference has that of `b`
    have hsigns : a.msb = !b.msb ∧ (a - b).msb = b.msb := by
      rw [BitVec.ssubOverflow_eq] at h
      grind
    have hne : a.msb ≠ b.msb := by simp [hsigns.1]
    rw [BitVec.slt_eq_not_ult_of_msb_neq hne, BitVec.ult_eq_msb_of_msb_neq hne, hsigns.2]
    simp

/-- A comparison out of three answers: are they equal, is the first below, is it less. -/
def Comparison.ofOrder (eq below less : Bool) : Comparison → Bool
  | .eq => eq
  | .ne => !eq
  | .below => below
  | .belowEq => below || eq
  | .above => !below && !eq
  | .aboveEq => !below
  | .less => less
  | .lessEq => less || eq
  | .greater => !less && !eq
  | .greaterEq => !less

theorem holds_eq_ofOrder (a b : BitVec w) (c : Comparison) :
    c.holds a b = c.ofOrder (a == b) (a.ult b) (a.slt b) := by
  have hule : ∀ x y : BitVec w, x.ule y = (x.ult y || x == y) := fun x y => by
    have heq : (x == y) = decide (x.toNat = y.toNat) := decide_eq_decide.mpr BitVec.toNat_inj.symm
    rw [heq, BitVec.ule_eq_decide, BitVec.ult_eq_decide, ← Bool.decide_or]
    exact decide_eq_decide.mpr Nat.le_iff_lt_or_eq
  cases c with
  | eq | ne | below | less => rfl
  | belowEq => exact hule a b
  | aboveEq => exact BitVec.ule_eq_not_ult b a
  | lessEq => exact BitVec.sle_eq_slt_or_eq
  | greaterEq => exact BitVec.sle_eq_not_slt
  | above =>
    show b.ult a = (!a.ult b && !(a == b))
    rw [← Bool.not_or, ← hule, BitVec.ule_eq_not_ult, Bool.not_not]
  | greater =>
    show b.slt a = (!a.slt b && !(a == b))
    rw [← Bool.not_or, ← BitVec.sle_eq_slt_or_eq, BitVec.sle_eq_not_slt, Bool.not_not]

theorem conditionalJumpTaken_compares (rflags : BitVec 64) :
    ∀ p ∈ jumpComparisons, conditionalJumpTaken p.1 rflags =
      some (p.2.ofOrder (rflags.getLsbD 6) (rflags.getLsbD 0)
        (rflags.getLsbD 7 != rflags.getLsbD 11)) := by
  simp only [jumpComparisons, List.forall_mem_cons]
  simp [conditionalJumpTaken, Comparison.ofOrder, Bool.or_comm, Bool.and_comm, bne]

theorem conditionalArm64JumpTaken_compares (pstate : BitVec 64) :
    ∀ p ∈ arm64Comparisons, conditionalArm64JumpTaken p.1 pstate =
      some (p.2.ofOrder (pstate.getLsbD 30) (!pstate.getLsbD 29)
        (pstate.getLsbD 31 != pstate.getLsbD 28)) := by
  simp only [arm64Comparisons, List.forall_mem_cons]
  simp [conditionalArm64JumpTaken, Comparison.ofOrder, Bool.or_comm, Bool.and_comm, bne]

/-- After a comparison, every jump for a comparison is taken where it holds, on either machine. -/
theorem jumps_compare (a b : BitVec w) (flags : BitVec 64) :
    (Compared a b flags → ∀ p ∈ jumpComparisons,
      conditionalJumpTaken p.1 flags = some (p.2.holds a b)) ∧
    (ComparedArm64 a b flags → ∀ p ∈ arm64Comparisons,
      conditionalArm64JumpTaken p.1 flags = some (p.2.holds a b)) := by
  constructor
  · intro h p hp
    rw [conditionalJumpTaken_compares flags p hp, holds_eq_ofOrder, slt_eq_flags,
      h.zero, h.carry, h.sign, h.overflow]
  · intro h p hp
    rw [conditionalArm64JumpTaken_compares flags p hp, holds_eq_ofOrder, slt_eq_flags,
      h.zero, h.carry, h.negative, h.overflow, Bool.not_not]

/-- A byte compared with a greater one: `-128` and `1` overflow. -/
theorem jumps_compare_overflow :
    let flags : BitVec 64 := BitVec.ofNat 64 0x800
    conditionalJumpTaken "jl" flags = some true ∧ conditionalJumpTaken "jb" flags = some false := by
  intro flags
  have h : Compared (0x80 : BitVec 8) 1 flags := ⟨by decide, by decide, by decide, by decide⟩
  have hjumps := (jumps_compare (0x80 : BitVec 8) 1 flags).1 h
  exact ⟨hjumps ("jl", .less) (by decide), hjumps ("jb", .below) (by decide)⟩

end CheatEngine.CpuFlags
