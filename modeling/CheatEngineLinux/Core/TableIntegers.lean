import Mathlib.Data.List.TakeWhile
import CheatEngineLinux.Core.CheatTable

/-!
# The integers of a table

What `writeTableJson` writes for an integer, `jsonInteger` reads: plain decimals through the
normaliser of coefficient and scale, addresses through the quoted form.

* `jsonInteger_numberValue` — **PROVED**: every integer of the type is read back;
* `jsonInteger_hexText` — **PROVED**: every address is read back.
-/

namespace CheatEngine.CtFile

open JsonGrammar
open Json (Value)

/-! ### Digits -/

theorem digitByte_toNat {d : ℕ} (h : d < 16) :
    (digitByte d).toNat = if d < 10 then 0x30 + d else 0x57 + d := by
  unfold digitByte
  split <;> rw [UInt8.toNat_ofNat'] <;> omega

theorem charDigit_digitByte {d : ℕ} (h : d < 16) : charDigit (digitByte d) = d := by
  have hcases : ∀ d < 16, charDigit (digitByte d) = d := by decide
  exact hcases d h

theorem readDigits_map {base : ℕ} {ds : List ℕ} (h : ∀ d ∈ ds, d < 16) :
    readDigits base (ds.map digitByte) = ds.foldl (fun n d => n * base + d) 0 := by
  unfold readDigits
  rw [List.foldl_map]
  generalize 0 = start
  induction ds generalizing start with
  | nil => rfl
  | cons d ds ih =>
    obtain ⟨hd, hds⟩ := List.forall_mem_cons.mp h
    rw [List.foldl_cons, List.foldl_cons, charDigit_digitByte hd, ih hds]

theorem foldl_reverse_digits (base n : ℕ) :
    (Nat.digits base n).reverse.foldl (fun n d => n * base + d) 0 = n := by
  rw [List.foldl_reverse]
  conv_rhs => rw [← Nat.ofDigits_digits base n]
  rw [Nat.ofDigits_eq_foldr]
  congr 1
  funext d m
  push_cast
  rw [Nat.mul_comm, Nat.add_comm]

section text

variable {base n : ℕ}

theorem mem_digits_lt (hbase : 1 < base) (hbase' : base ≤ 16) {d : ℕ}
    (h : d ∈ (Nat.digits base n).reverse) : d < base ∧ d < 16 := by
  have := Nat.digits_lt_base hbase (List.mem_reverse.mp h)
  omega

theorem readDigits_digitsText (hbase : 1 < base) (hbase' : base ≤ 16) :
    readDigits base (digitsText base n) = n := by
  unfold digitsText
  split
  · next h =>
    rw [h]
    simp [readDigits, charDigit]
  · rw [readDigits_map fun d hd => (mem_digits_lt hbase hbase' hd).2, foldl_reverse_digits]

theorem mem_digitsText (hbase : 1 < base) (hbase' : base ≤ 16) {b : UInt8}
    (h : b ∈ digitsText base n) : ∃ d < base, b = digitByte d := by
  unfold digitsText at h
  split at h
  · exact ⟨0, by omega, List.mem_singleton.mp h⟩
  · obtain ⟨d, hd, rfl⟩ := List.mem_map.mp h
    exact ⟨d, (mem_digits_lt hbase hbase' hd).1, rfl⟩

theorem digitsText_ne_nil : digitsText base n ≠ [] := by
  unfold digitsText
  split
  · simp
  · next h => simpa [Nat.digits_eq_nil_iff_eq_zero] using h

theorem digitsText_head (hbase : 1 < base) (hbase' : base ≤ 16) (hn : n ≠ 0) :
    ∃ d tail, d ≠ 0 ∧ d < base ∧ digitsText base n = digitByte d :: tail := by
  have hne : (Nat.digits base n).reverse ≠ [] := by
    simpa [Nat.digits_eq_nil_iff_eq_zero] using hn
  obtain ⟨d, tail, hrev⟩ := List.exists_cons_of_ne_nil hne
  have hlast : (Nat.digits base n).getLast (Nat.digits_ne_nil_iff_ne_zero.mpr hn) = d := by
    rw [← List.head_reverse hne]
    simp [hrev]
  refine ⟨d, tail.map digitByte, ?_, ?_, ?_⟩
  · rw [← hlast]
    exact Nat.getLast_digit_ne_zero base hn
  · exact (mem_digits_lt hbase hbase' (by rw [hrev]; simp)).1
  · unfold digitsText
    rw [if_neg hn, hrev, List.map_cons]

end text

/-! ### Number tokens -/

theorem isDigit_digitByte {d : ℕ} (h : d < 10) : isDigit (digitByte d) = true := by
  have hcases : ∀ d < 10, isDigit (digitByte d) = true := by decide
  exact hcases d h

theorem intPart_digitsText (n : ℕ) : IntPart (digitsText 10 n) := by
  by_cases hn : n = 0
  · rw [hn]
    exact IntPart.zero
  · obtain ⟨d, tail, hd0, hd, htext⟩ := @digitsText_head 10 n (by decide) (by decide) hn
    have hmem : ∀ b ∈ digitsText 10 n, isDigit b = true := by
      intro b hb
      obtain ⟨d, hd, rfl⟩ := mem_digitsText (by decide) (by decide) hb
      exact isDigit_digitByte hd
    rw [htext] at hmem ⊢
    obtain ⟨hhead, htail⟩ := List.forall_mem_cons.mp hmem
    refine IntPart.digits _ _ hhead ?_ htail
    have hcases : ∀ d < 10, d ≠ 0 → digitByte d ≠ 0x30 := by decide
    exact hcases d hd hd0

theorem number_intText (n : ℤ) : Number (intText n) := by
  unfold intText
  split
  · exact ⟨[0x2d], digitsText 10 n.natAbs, [], [], Or.inr rfl, intPart_digitsText _, Or.inl rfl, Or.inl rfl, by simp⟩
  · exact ⟨[], digitsText 10 n.natAbs, [], [], Or.inl rfl, intPart_digitsText _, Or.inl rfl, Or.inl rfl, by simp⟩

/-! ### `jsonInteger` -/

/-- The checked accumulation is the plain one while the result fits. -/
theorem accumulate_eq {ds : List ℕ} (hds : ∀ d ∈ ds, d < 10) (m : ℕ)
    (h : ds.foldl (fun n d => n * 10 + d) m ≤ uint64Max) :
    accumulate m (ds.map digitByte) = some (ds.foldl (fun n d => n * 10 + d) m) := by
  induction ds generalizing m with
  | nil => rfl
  | cons d ds ih =>
    obtain ⟨hd, hds'⟩ := List.forall_mem_cons.mp hds
    rw [List.foldl_cons] at h ⊢
    have hmono : ∀ (l : List ℕ) (k : ℕ), k ≤ l.foldl (fun n d => n * 10 + d) k := by
      intro l
      induction l with
      | nil => exact fun k => Nat.le_refl k
      | cons x l ihl => exact fun k => Nat.le_trans (by omega) (ihl (k * 10 + x))
    have hstep := Nat.le_trans (hmono ds (m * 10 + d)) h
    have hval : (digitByte d).toNat - 0x30 = d := by
      rw [digitByte_toNat (by omega), if_pos hd]
      omega
    rw [List.map_cons, accumulate, hval]
    rw [if_neg (by unfold uint64Max at *; omega)]
    exact ih hds' _ h

theorem digit_plain {d : ℕ} (h : d < 10) : isExponentMark (digitByte d) = false ∧
    (digitByte d != 0x2e) = true := by
  have hcases : ∀ d < 10, isExponentMark (digitByte d) = false ∧ (digitByte d != 0x2e) = true := by
    decide
  exact hcases d h

theorem plainMagnitude_digitsText {n : ℕ} (h : n ≤ uint64Max) :
    plainMagnitude (digitsText 10 n) = some n := by
  have hplain : ∀ b ∈ digitsText 10 n, (!isExponentMark b) = true ∧ (b != 0x2e) = true := by
    intro b hb
    obtain ⟨d, hd, rfl⟩ := mem_digitsText (by decide) (by decide) hb
    exact ⟨by rw [(digit_plain hd).1]; rfl, (digit_plain hd).2⟩
  have htake : (digitsText 10 n).takeWhile (fun b => !isExponentMark b) = digitsText 10 n :=
    List.takeWhile_eq_self_iff.mpr fun b hb => (hplain b hb).1
  have hdrop : (digitsText 10 n).dropWhile (fun b => !isExponentMark b) = [] :=
    List.dropWhile_eq_nil_iff.mpr fun b hb => (hplain b hb).1
  have hpoint : (digitsText 10 n).dropWhile (· != 0x2e) = [] :=
    List.dropWhile_eq_nil_iff.mpr fun b hb => (hplain b hb).2
  have hfilter : (digitsText 10 n).filter (· != 0x2e) = digitsText 10 n :=
    List.filter_eq_self.mpr fun b hb => (hplain b hb).2
  have hexp : exponentPart (digitsText 10 n) = some (false, 0) := by
    unfold exponentPart
    rw [hdrop]
  unfold plainMagnitude
  simp only [htake, hpoint, hfilter, hexp, Option.bind_eq_bind, Option.bind_some]
  by_cases hn : n = 0
  · rw [hn]
    rfl
  · obtain ⟨d, tail, hd0, hd, htext⟩ := @digitsText_head 10 n (by decide) (by decide) hn
    have hcases : ∀ d < 10, d ≠ 0 → (digitByte d == 0x30) = false := by decide
    have hstrip : (digitsText 10 n).dropWhile (· == 0x30) = digitsText 10 n := by
      rw [htext]
      simp [hcases d hd hd0]
    rw [hstrip, if_neg (by rw [htext]; simp)]
    have hmap : digitsText 10 n = (Nat.digits 10 n).reverse.map digitByte := by
      unfold digitsText
      rw [if_neg hn]
    have hacc := @accumulate_eq (Nat.digits 10 n).reverse
      (fun d hd => (mem_digits_lt (by decide) (by decide) hd).1) 0
      (by rw [foldl_reverse_digits]; exact h)
    rw [foldl_reverse_digits, ← hmap] at hacc
    simpa [scaleBy] using hacc

def InType (signed : Bool) (bits : ℕ) (n : ℤ) : Prop :=
  if signed then -(2 ^ (bits - 1)) ≤ n ∧ n < 2 ^ (bits - 1) else 0 ≤ n ∧ n < 2 ^ bits

theorem inRange_eq {signed : Bool} {bits : ℕ} {n : ℤ} (h : InType signed bits n) :
    inRange signed bits (decide (n < 0)) n.natAbs = some n := by
  unfold InType at h
  unfold inRange
  cases signed with
  | true =>
    simp only [if_true] at h ⊢
    have hpow : ((2 ^ (bits - 1) : ℕ) : ℤ) = 2 ^ (bits - 1) := by push_cast; rfl
    have hpos : 0 < 2 ^ (bits - 1) := Nat.two_pow_pos _
    by_cases hn : n < 0
    · simp only [hn, decide_true, if_true]
      rw [if_neg (by omega)]
      congr 1
      omega
    · simp only [hn, decide_false]
      rw [if_neg (by simp only [Bool.false_eq_true, if_false]; omega)]
      simp only [Bool.false_eq_true, if_false]
      congr 1
      omega
  | false =>
    simp only [Bool.false_eq_true, if_false] at h ⊢
    have hpow : ((2 ^ bits : ℕ) : ℤ) = 2 ^ bits := by push_cast; rfl
    have hn : ¬ n < 0 := by omega
    have hpos : 0 < 2 ^ bits := Nat.two_pow_pos _
    rw [if_neg]
    · congr 1
      omega
    · simp only [hn, decide_false, Bool.false_and, Bool.false_or, decide_eq_true_eq]
      omega

theorem intText_ne_nil (n : ℤ) : intText n ≠ [] := by
  unfold intText
  split
  · simp
  · exact digitsText_ne_nil

theorem jsonInteger_numberValue {signed : Bool} {bits : ℕ} {n : ℤ} (hbits : bits ≤ 64)
    (h : InType signed bits n) : jsonInteger signed bits (numberValue n) = some n := by
  have hmag : n.natAbs ≤ uint64Max := by
    have hp : (2 : ℤ) ^ bits ≤ 2 ^ 64 := pow_le_pow_right₀ (by decide) hbits
    have hp' : (2 : ℤ) ^ (bits - 1) ≤ 2 ^ 63 := pow_le_pow_right₀ (by decide) (by omega)
    unfold InType at h
    unfold uint64Max
    cases signed <;> simp only [Bool.false_eq_true, if_false, if_true] at h <;> omega
  unfold jsonInteger numberValue
  simp only [Value.numberText]
  rw [if_neg (by simpa using intText_ne_nil n)]
  have hrange := inRange_eq h
  by_cases hn : n < 0
  · have htext : intText n = 0x2d :: digitsText 10 n.natAbs := by rw [intText, if_pos hn]
    rw [htext]
    simp only [List.head?_cons, beq_self_eq_true, if_true, List.tail_cons]
    rw [if_neg (by simpa using digitsText_ne_nil), plainMagnitude_digitsText hmag,
      Option.bind_some, ← hrange, decide_eq_true hn]
  · have htext : intText n = digitsText 10 n.natAbs := by rw [intText, if_neg hn]
    have hhead : ((digitsText 10 n.natAbs).head? == some 0x2d) = false := by
      rw [beq_eq_false_iff_ne]
      intro heq
      obtain ⟨d, hd, hb⟩ := @mem_digitsText 10 n.natAbs (by decide) (by decide) _
        (List.mem_of_mem_head? heq)
      have hcases : ∀ d < 10, digitByte d ≠ 0x2d := by decide
      exact hcases d hd hb.symm
    rw [htext, hhead]
    simp only [Bool.false_eq_true, if_false]
    rw [if_neg (by simpa using digitsText_ne_nil), plainMagnitude_digitsText hmag,
      Option.bind_some]
    rw [decide_eq_false hn] at hrange
    exact hrange

/-! ### Addresses -/

theorem trimSpace_eq {s : Bytes} (h : ∀ b ∈ s, isSpace b = false) : trimSpace s = s := by
  have hdrop : ∀ l : Bytes, (∀ b ∈ l, isSpace b = false) → l.dropWhile isSpace = l := by
    intro l hl
    cases l with
    | nil => rfl
    | cons b l => simp [hl b (by simp)]
  unfold trimSpace
  rw [hdrop s h, hdrop s.reverse (fun b hb => h b (List.mem_reverse.mp hb)), List.reverse_reverse]

theorem fromCharsAll_digitsText {n : ℕ} (h : n ≤ uint64Max) :
    fromCharsAll 16 (digitsText 16 n) = some n := by
  have hany : (digitsText 16 n).any (fun b => decide (16 ≤ charDigit b)) = false := by
    rw [List.any_eq_false]
    intro b hb
    obtain ⟨d, hd, rfl⟩ := mem_digitsText (by decide) (by decide) hb
    rw [charDigit_digitByte hd]
    simpa using hd
  have hempty : (digitsText 16 n).isEmpty = false := by
    rw [List.isEmpty_eq_false_iff]
    exact digitsText_ne_nil
  unfold fromCharsAll
  rw [hany, hempty, readDigits_digitsText (by decide) (by decide)]
  simp only [Bool.or_self, Bool.false_eq_true, if_false]
  rw [if_neg (by omega)]

theorem jsonInteger_hexText (a : UInt64) :
    jsonInteger false 64 (Value.string (hexText a)) = some (a.toNat : ℤ) := by
  have hlit : lit "0x" = [0x30, 0x78] := by decide
  have hlt := a.toNat_lt
  have hspace : ∀ b ∈ hexText a, isSpace b = false := by
    intro b hb
    rw [hexText, hlit] at hb
    rcases List.mem_append.mp hb with hb | hb
    · simp only [List.mem_cons, List.not_mem_nil, or_false] at hb
      rcases hb with rfl | rfl <;> rfl
    · obtain ⟨d, hd, rfl⟩ := mem_digitsText (by decide) (by decide) hb
      have hcases : ∀ d < 16, isSpace (digitByte d) = false := by decide
      exact hcases d hd
  unfold jsonInteger
  simp only [Value.string]
  rw [trimSpace_eq hspace, hexText, hlit]
  simp only [List.cons_append, List.nil_append, List.isEmpty_cons, Bool.false_eq_true, if_false,
    List.head?_cons, Option.some_beq_some, show ((0x30 : UInt8) == 0x2d) = false from rfl,
    show ((0x30 : UInt8) == 0x2b) = false from rfl, Bool.or_self]
  have hquoted : quotedMagnitude (0x30 :: 0x78 :: digitsText 16 a.toNat) = some a.toNat := by
    unfold quotedMagnitude
    rw [if_pos (by simp), if_pos (by simp)]
    exact fromCharsAll_digitsText (by unfold uint64Max; omega)
  rw [hquoted, Option.bind_some]
  have hrange := @inRange_eq false 64 a.toNat (by
    unfold InType
    simp only [Bool.false_eq_true, if_false]
    omega)
  rw [decide_eq_false (show ¬ ((a.toNat : ℕ) : ℤ) < 0 by omega), Int.natAbs_natCast] at hrange
  exact hrange

end CheatEngine.CtFile
