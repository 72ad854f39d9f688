import Mathlib.Data.List.Basic

/-!
# Numerals

Digits of the bases up to 16, in either case, and the number that a sequence of them denotes.

* `digitValue`, `IsDigits`, `valueFrom`: one digit, a sequence of digits, its number.
* **PROVED `value_toDigits`, `isDigits_toDigits`**: what `Nat.toDigits` prints denotes the number.
-/

namespace Numerals

def digitValue (c : Char) : Option ℕ :=
  if '0' ≤ c ∧ c ≤ '9' then some (c.toNat - '0'.toNat)
  else if 'a' ≤ c ∧ c ≤ 'f' then some (c.toNat - 'a'.toNat + 10)
  else if 'A' ≤ c ∧ c ≤ 'F' then some (c.toNat - 'A'.toNat + 10)
  else none

def IsDigits (base : ℕ) (cs : List Char) : Prop :=
  ∀ c ∈ cs, ∃ d, digitValue c = some d ∧ d < base

/-- The number with more digits after it. -/
def valueFrom (base : ℕ) (v : ℕ) (cs : List Char) : ℕ :=
  cs.foldl (fun v c => v * base + (digitValue c).getD 0) v

/-- The number that digits denote. -/
def value (base : ℕ) (cs : List Char) : ℕ := valueFrom base 0 cs

variable {base : ℕ} {cs : List Char}

theorem isDigits_cons {c : Char} :
    IsDigits base (c :: cs) ↔ (∃ d, digitValue c = some d ∧ d < base) ∧ IsDigits base cs :=
  List.forall_mem_cons

theorem le_valueFrom (hbase : 0 < base) (v : ℕ) (cs : List Char) : v ≤ valueFrom base v cs := by
  induction cs generalizing v with
  | nil => exact Nat.le_refl _
  | cons c cs ih =>
    refine Nat.le_trans ?_ (ih (v * base + (digitValue c).getD 0))
    exact Nat.le_trans (Nat.le_mul_of_pos_right v hbase) (Nat.le_add_right _ _)

theorem digitValue_digitChar {d : ℕ} (h : d < 16) : digitValue d.digitChar = some d := by
  have hall : ∀ d, d < 16 → digitValue d.digitChar = some d := by decide
  exact hall d h

theorem mem_toDigits (hone : 1 < base) {n : ℕ} {c : Char} (hc : c ∈ Nat.toDigits base n) :
    ∃ d < base, c = Nat.digitChar d := by
  induction n using Nat.strongRecOn with
  | _ n ih =>
    rw [Nat.toDigits_eq_if hone] at hc
    split at hc
    · rename_i hsmall
      exact ⟨n, hsmall, List.mem_singleton.mp hc⟩
    · rcases List.mem_append.mp hc with hc | hc
      · exact ih _ (Nat.div_lt_self (by omega) hone) hc
      · exact ⟨n % base, Nat.mod_lt _ (by omega), List.mem_singleton.mp hc⟩

theorem isDigits_toDigits (hone : 1 < base) (hbase : base ≤ 16) (n : ℕ) :
    IsDigits base (Nat.toDigits base n) := by
  intro c hc
  obtain ⟨d, hd, rfl⟩ := mem_toDigits hone hc
  exact ⟨d, digitValue_digitChar (by omega), hd⟩

/-- What is printed denotes the number. -/
theorem value_toDigits (hone : 1 < base) (hbase : base ≤ 16) (n : ℕ) :
    value base (Nat.toDigits base n) = n := by
  induction n using Nat.strongRecOn with
  | _ n ih =>
    rw [Nat.toDigits_eq_if hone]
    split
    · simp [value, valueFrom, digitValue_digitChar (show n < 16 by omega)]
    · have hlt : n % base < base := Nat.mod_lt _ (by omega)
      have ih := ih _ (Nat.div_lt_self (by omega) hone)
      rw [value, valueFrom] at ih
      rw [value, valueFrom, List.foldl_append, ih, List.foldl_cons, List.foldl_nil,
        digitValue_digitChar (by omega), Option.getD_some, Nat.mul_comm]
      exact Nat.div_add_mod n base

end Numerals
