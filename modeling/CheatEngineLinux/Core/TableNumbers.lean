import CheatEngineLinux.Core.TableIntegers
import CheatEngineLinux.Library.Slices

/-!
# The numbers of a table, read exactly

`jsonInteger` takes number tokens of any length, with any fraction and exponent, and quoted
numerals. It reads a token exactly when the token stands for an integer of the type.

* `Denotes`: the rational number that a token stands for.
* `QuotedInteger`: the integer that a quoted numeral stands for.
* `jsonIntegerWord`: the reader over 64-bit words, stopping where an operation would wrap.

* **PROVED `plainMagnitude_eq_some`**: coefficient and scale are normalised without loss.
* **PROVED `jsonInteger_exact`**: a value is returned exactly for the integers of the type, and no
  step overflows.
-/

namespace CheatEngine.CtFile

open JsonGrammar
open Json (Value)

/-! ### What a number token stands for -/

inductive ExpValue : Bytes → ℤ → Prop
  | absent : ExpValue [] 0
  | positive (e : UInt8) (sign ds : Bytes) : isExponentMark e = true → sign = [] ∨ sign = [0x2b] →
      Digits ds → ExpValue (e :: (sign ++ ds)) (readDigits 10 ds)
  | negative (e : UInt8) (ds : Bytes) : isExponentMark e = true → Digits ds →
      ExpValue (e :: 0x2d :: ds) (-(readDigits 10 ds))

inductive FracDigits : Bytes → Bytes → Prop
  | absent : FracDigits [] []
  | digits (ds : Bytes) : Digits ds → FracDigits (0x2e :: ds) ds

/-- The coefficient, read without its point, moved by the exponent. -/
def decimal (coefficient : Bytes) (scale : ℤ) : ℚ :=
  readDigits 10 coefficient * 10 ^ scale

/-- The token is a number of the grammar with this value. -/
def Denotes (t : Bytes) (q : ℚ) : Prop :=
  ∃ (negative : Bool) (int frac fraction exp : Bytes) (exponent : ℤ),
    IntPart int ∧ FracDigits frac fraction ∧ ExpValue exp exponent ∧
      t = (if negative then [0x2d] else []) ++ (int ++ (frac ++ exp)) ∧
      q = (if negative then -1 else 1) * decimal (int ++ fraction) (exponent - fraction.length)

theorem exists_denotes {t : Bytes} (h : Number t) : ∃ q, Denotes t q := by
  obtain ⟨minus, int, frac, exp, hminus, hint, hfrac, hexp, rfl⟩ := h
  obtain ⟨fraction, hfraction⟩ : ∃ fraction, FracDigits frac fraction := by
    rcases hfrac with rfl | ⟨ds, hds, rfl⟩
    · exact ⟨[], .absent⟩
    · exact ⟨ds, .digits ds hds⟩
  obtain ⟨exponent, hexponent⟩ : ∃ exponent, ExpValue exp exponent := by
    rcases hexp with rfl | ⟨e, sign, ds, he, hsign, hds, rfl⟩
    · exact ⟨0, .absent⟩
    · have hmark : isExponentMark e = true := by
        rcases he with rfl | rfl
        · rfl
        · rfl
      rcases hsign with rfl | rfl | rfl
      · exact ⟨_, .positive e [] ds hmark (Or.inl rfl) hds⟩
      · exact ⟨_, .positive e [0x2b] ds hmark (Or.inr rfl) hds⟩
      · exact ⟨_, .negative e ds hmark hds⟩
  rcases hminus with rfl | rfl
  · exact ⟨_, false, int, frac, fraction, exp, exponent, hint, hfraction, hexponent, rfl, rfl⟩
  · exact ⟨_, true, int, frac, fraction, exp, exponent, hint, hfraction, hexponent, rfl, rfl⟩

/-! ### Digits -/

theorem charDigit_of_isDigit {b : UInt8} (h : isDigit b = true) :
    charDigit b = b.toNat - 0x30 ∧ charDigit b < 10 := by
  unfold isDigit at h
  rw [Bool.and_eq_true, decide_eq_true_eq, decide_eq_true_eq, UInt8.le_iff_toNat_le,
    UInt8.le_iff_toNat_le] at h
  have hlow : (0x30 : UInt8).toNat = 48 := rfl
  have hhigh : (0x39 : UInt8).toNat = 57 := rfl
  unfold charDigit
  rw [if_pos]
  · omega
  · rw [Bool.and_eq_true, decide_eq_true_eq, decide_eq_true_eq, UInt8.le_iff_toNat_le,
      UInt8.le_iff_toNat_le]
    omega

theorem readDigits_nil (base : ℕ) : readDigits base [] = 0 := rfl

theorem readDigits_snoc (base : ℕ) (s : Bytes) (b : UInt8) :
    readDigits base (s ++ [b]) = readDigits base s * base + charDigit b := by
  unfold readDigits
  rw [List.foldl_append]
  rfl

theorem readDigits_append (base : ℕ) (s t : Bytes) :
    readDigits base (s ++ t) = readDigits base s * base ^ t.length + readDigits base t := by
  induction t using List.reverseRecOn with
  | nil => simp [readDigits_nil]
  | append_singleton t b ih =>
    rw [← List.append_assoc, readDigits_snoc, ih, readDigits_snoc, List.length_append,
      List.length_singleton, pow_succ]
    ring

theorem readDigits_lt {base : ℕ} {s : Bytes} (h : ∀ b ∈ s, charDigit b < base) :
    readDigits base s < base ^ s.length := by
  induction s using List.reverseRecOn with
  | nil => simp [readDigits_nil]
  | append_singleton s b ih =>
    have hs := ih fun c hc => h c (List.mem_append_left _ hc)
    have hb := h b (by simp)
    rw [readDigits_snoc, List.length_append, List.length_singleton, pow_succ]
    calc readDigits base s * base + charDigit b < readDigits base s * base + base := by omega
      _ = (readDigits base s + 1) * base := by ring
      _ ≤ base ^ s.length * base := Nat.mul_le_mul_right _ hs

theorem charDigit_eq_zero {b : UInt8} (h : isDigit b = true) : charDigit b = 0 ↔ b = 0x30 := by
  have hvalue := charDigit_of_isDigit h
  unfold isDigit at h
  rw [Bool.and_eq_true, decide_eq_true_eq, decide_eq_true_eq, UInt8.le_iff_toNat_le,
    UInt8.le_iff_toNat_le] at h
  have hzero : (0x30 : UInt8).toNat = 48 := rfl
  rw [← UInt8.toNat_inj]
  omega

/-- Bytes from `'0'` to `'9'`. -/
def AllDigits (s : Bytes) : Prop := ∀ b ∈ s, isDigit b = true

theorem AllDigits.append {s t : Bytes} (hs : AllDigits s) (ht : AllDigits t) :
    AllDigits (s ++ t) := by
  intro b hb
  rcases List.mem_append.mp hb with hb | hb
  · exact hs b hb
  · exact ht b hb

theorem AllDigits.lt {s : Bytes} (h : AllDigits s) : readDigits 10 s < 10 ^ s.length :=
  readDigits_lt fun b hb => (charDigit_of_isDigit (h b hb)).2

theorem allDigits_int {s : Bytes} (h : IntPart s) : AllDigits s := by
  cases h with
  | zero =>
    intro b hb
    rw [List.mem_singleton.mp hb]
    rfl
  | digits d ds hd _ hds =>
    intro b hb
    rcases List.mem_cons.mp hb with rfl | hb
    · exact hd
    · exact hds b hb

theorem FracDigits.allDigits {frac fraction : Bytes} (h : FracDigits frac fraction) :
    AllDigits fraction := by
  cases h with
  | absent => exact fun b hb => absurd hb List.not_mem_nil
  | digits ds hds => exact hds.2

theorem readDigits_eq_zero {s : Bytes} (h : AllDigits s) :
    readDigits 10 s = 0 ↔ ∀ b ∈ s, b = 0x30 := by
  induction s using List.reverseRecOn with
  | nil => simp [readDigits_nil]
  | append_singleton s b ih =>
    have hs : AllDigits s := fun c hc => h c (List.mem_append_left _ hc)
    have hb := h b (by simp)
    have hzero := charDigit_eq_zero hb
    rw [readDigits_snoc]
    constructor
    · intro h0 c hc
      rcases List.mem_append.mp hc with hc | hc
      · exact (ih hs).mp (by omega) c hc
      · rw [List.mem_singleton.mp hc]
        exact hzero.mp (by omega)
    · intro hall
      rw [(ih hs).mpr fun c hc => hall c (List.mem_append_left _ hc),
        hzero.mpr (hall b (by simp))]

theorem readDigits_dropWhile_zero (s : Bytes) :
    readDigits 10 (s.dropWhile (· == 0x30)) = readDigits 10 s := by
  have hsplit := List.takeWhile_append_dropWhile (p := fun b : UInt8 => b == 0x30) (l := s)
  have hzeros : readDigits 10 (s.takeWhile (· == 0x30)) = 0 := by
    have hall : ∀ b ∈ s.takeWhile (fun b : UInt8 => b == 0x30), b = 0x30 :=
      fun b hb => by simpa using List.mem_takeWhile_imp hb
    refine (readDigits_eq_zero ?_).mpr hall
    intro b hb
    rw [hall b hb]
    rfl
  conv_rhs => rw [← hsplit]
  rw [readDigits_append, hzeros]
  omega


/-! ### The loops of the reader -/

theorem le_foldl_digits (s : Bytes) (n : ℕ) :
    n ≤ s.foldl (fun n b => n * 10 + charDigit b) n := by
  induction s generalizing n with
  | nil => exact Nat.le_refl n
  | cons b s ih => exact Nat.le_trans (by omega) (ih (n * 10 + charDigit b))

/-- The loop stops as soon as the value passes the bound, and then the whole value does. -/
theorem exponentOf_eq {bound : ℕ} (hbound : 9 ≤ bound) {s : Bytes} (h : AllDigits s) (e : ℕ)
    (he : e ≤ bound) :
    exponentOf bound e s =
      if s.foldl (fun n b => n * 10 + charDigit b) e ≤ bound
        then some (s.foldl (fun n b => n * 10 + charDigit b) e) else none := by
  induction s generalizing e with
  | nil =>
    rw [exponentOf, List.foldl_nil, if_pos he]
  | cons b s ih =>
    obtain ⟨hvalue, hlt⟩ := charDigit_of_isDigit (h b List.mem_cons_self)
    have hrest : AllDigits s := fun c hc => h c (List.mem_cons_of_mem _ hc)
    rw [exponentOf, List.foldl_cons, ← hvalue]
    by_cases hstep : e * 10 + charDigit b ≤ bound
    · rw [if_neg (by omega), ih hrest _ hstep]
    · have hmono := le_foldl_digits s (e * 10 + charDigit b)
      rw [if_pos (by omega), if_neg (by omega)]

theorem accumulate_eq_exponentOf (s : Bytes) (m : ℕ) :
    accumulate m s = exponentOf uint64Max m s := by
  induction s generalizing m with
  | nil => rfl
  | cons b s ih =>
    rw [accumulate, exponentOf, ih]

theorem accumulate_digits {s : Bytes} (h : AllDigits s) :
    accumulate 0 s = if readDigits 10 s ≤ uint64Max then some (readDigits 10 s) else none := by
  rw [accumulate_eq_exponentOf, exponentOf_eq (by decide) h 0 (Nat.zero_le _)]
  rfl

/-! ### A coefficient and a scale -/

/-- `10 ^ 20` is beyond every integer type. -/
theorem uint64Max_lt {n : ℕ} (h : 10 ^ 20 ≤ n) : uint64Max < n :=
  Nat.lt_of_lt_of_le (by decide) h

/-- What the reader does with a coefficient that starts with a digit other than 0. -/
def scaled (digits : Bytes) (remove append : ℕ) : Option ℕ :=
  if remove > digits.length || append > 20 then none
  else
    let kept := digits.take (digits.length - remove)
    if (digits.drop (digits.length - remove)).any (· != 0x30) then none
    else accumulate 0 (kept ++ List.replicate append 0x30)

section scale

variable {digits : Bytes}

theorem readDigits_replicate (n : ℕ) : readDigits 10 (List.replicate n 0x30) = 0 := by
  rw [readDigits_eq_zero]
  · exact fun b hb => (List.mem_replicate.mp hb).2
  · intro b hb
    rw [(List.mem_replicate.mp hb).2]
    rfl

theorem scaled_append (h : AllDigits digits) (hpos : 1 ≤ readDigits 10 digits) (append m : ℕ) :
    scaled digits 0 append = some m ↔
      m = readDigits 10 digits * 10 ^ append ∧ m ≤ uint64Max := by
  unfold scaled
  rw [Nat.sub_zero, List.take_length, List.drop_length]
  by_cases happend : append > 20
  · rw [if_pos (by simp [happend])]
    have hbig : 10 ^ 20 ≤ readDigits 10 digits * 10 ^ append := by
      calc 10 ^ 20 ≤ 10 ^ append := Nat.pow_le_pow_right (by decide) (by omega)
        _ = 1 * 10 ^ append := (Nat.one_mul _).symm
        _ ≤ _ := Nat.mul_le_mul_right _ hpos
    constructor
    · intro hnone
      cases hnone
    · rintro ⟨rfl, hle⟩
      have := uint64Max_lt hbig
      omega
  · have hzeros : AllDigits (digits ++ List.replicate append 0x30) := by
      refine h.append fun b hb => ?_
      rw [(List.mem_replicate.mp hb).2]
      rfl
    have hvalue : readDigits 10 (digits ++ List.replicate append 0x30) =
        readDigits 10 digits * 10 ^ append := by
      rw [readDigits_append, readDigits_replicate, List.length_replicate, Nat.add_zero]
    rw [if_neg (by simp [happend]), if_neg (by simp), accumulate_digits hzeros, hvalue]
    split
    · rename_i hle
      rw [Option.some_inj]
      constructor
      · rintro rfl
        exact ⟨rfl, hle⟩
      · exact fun hm => hm.1.symm
    · rename_i hle
      constructor
      · intro hnone
        cases hnone
      · rintro ⟨rfl, hm⟩
        exact absurd hm hle

theorem scaled_remove (h : AllDigits digits) (hpos : 1 ≤ readDigits 10 digits) (remove m : ℕ) :
    scaled digits remove 0 = some m ↔
      m * 10 ^ remove = readDigits 10 digits ∧ m ≤ uint64Max := by
  have hlt := h.lt
  unfold scaled
  by_cases hremove : remove > digits.length
  · rw [if_pos (by simp [hremove])]
    constructor
    · intro hnone
      cases hnone
    · rintro ⟨heq, -⟩
      have hm : m ≠ 0 := by
        rintro rfl
        omega
      have hbig : 10 ^ digits.length ≤ m * 10 ^ remove := by
        calc 10 ^ digits.length ≤ 10 ^ remove := Nat.pow_le_pow_right (by decide) (by omega)
          _ = 1 * 10 ^ remove := (Nat.one_mul _).symm
          _ ≤ _ := Nat.mul_le_mul_right _ (Nat.one_le_iff_ne_zero.mpr hm)
      omega
  · obtain ⟨kept, hkept⟩ : ∃ kept, kept = digits.take (digits.length - remove) := ⟨_, rfl⟩
    obtain ⟨tail, htail⟩ : ∃ tail, tail = digits.drop (digits.length - remove) := ⟨_, rfl⟩
    have hlength : tail.length = remove := by
      rw [htail, List.length_drop]
      omega
    have hsplit : kept ++ tail = digits := by
      rw [hkept, htail, List.take_append_drop]
    have hdigits : AllDigits kept ∧ AllDigits tail := by
      rw [← hsplit] at h
      exact ⟨fun b hb => h b (List.mem_append_left _ hb),
        fun b hb => h b (List.mem_append_right _ hb)⟩
    have hvalue : readDigits 10 digits = readDigits 10 kept * 10 ^ remove + readDigits 10 tail := by
      rw [← hsplit, readDigits_append, hlength]
    have htailLt : readDigits 10 tail < 10 ^ remove := by
      rw [← hlength]
      exact hdigits.2.lt
    have hpow : 0 < 10 ^ remove := Nat.pow_pos (by decide)
    rw [if_neg (by simp; omega), List.replicate_zero]
    dsimp only
    rw [List.append_nil, ← hkept, ← htail, accumulate_digits hdigits.1]
    -- a multiple of the power has no remainder
    have hexact : ∀ m, m * 10 ^ remove = readDigits 10 digits ↔
        readDigits 10 tail = 0 ∧ m = readDigits 10 kept := by
      intro m
      rw [hvalue]
      constructor
      · intro heq
        have hmod := congrArg (fun n => n % 10 ^ remove) heq
        have hdiv := congrArg (fun n => n / 10 ^ remove) heq
        beta_reduce at hmod hdiv
        rw [Nat.mul_mod_left, Nat.mul_add_mod', Nat.mod_eq_of_lt htailLt] at hmod
        rw [Nat.mul_div_cancel _ hpow, Nat.mul_comm, Nat.mul_add_div hpow,
          Nat.div_eq_of_lt htailLt, Nat.add_zero] at hdiv
        exact ⟨hmod.symm, hdiv⟩
      · rintro ⟨hzero, rfl⟩
        rw [hzero, Nat.add_zero]
    rw [hexact]
    have hany : (tail.any (· != 0x30)) = true ↔ readDigits 10 tail ≠ 0 := by
      rw [ne_eq, readDigits_eq_zero hdigits.2, List.any_eq_true]
      simp
    by_cases hzero : readDigits 10 tail = 0
    · rw [if_neg (fun hx => hany.mp hx hzero)]
      split
      · rename_i hle
        rw [Option.some_inj]
        constructor
        · rintro rfl
          exact ⟨⟨hzero, rfl⟩, hle⟩
        · exact fun hm => hm.1.2.symm
      · rename_i hle
        constructor
        · intro hnone
          cases hnone
        · rintro ⟨⟨-, rfl⟩, hm⟩
          exact absurd hm hle
    · rw [if_pos (hany.mpr hzero)]
      constructor
      · intro hnone
        cases hnone
      · exact fun hm => absurd hm.1.1 hzero

theorem eq_decimal_up (s : Bytes) (m k : ℕ) :
    (m : ℚ) = decimal s k ↔ m = readDigits 10 s * 10 ^ k := by
  unfold decimal
  rw [zpow_natCast]
  exact_mod_cast Iff.rfl

theorem eq_decimal_down (s : Bytes) (m k : ℕ) :
    (m : ℚ) = decimal s (-(k : ℤ)) ↔ m * 10 ^ k = readDigits 10 s := by
  unfold decimal
  rw [zpow_neg, zpow_natCast, ← div_eq_mul_inv, eq_div_iff (by positivity)]
  exact_mod_cast Iff.rfl

def signedExponent (exponent : Bool × ℕ) : ℤ :=
  if exponent.1 then -(exponent.2 : ℤ) else exponent.2

theorem scaleBy_eq (exponent : Bool × ℕ) (fractional m : ℕ) (h : AllDigits digits)
    (hpos : 1 ≤ readDigits 10 digits) :
    ((scaleBy digits.length fractional exponent).bind fun s => scaled digits s.1 s.2) = some m ↔
      (m : ℚ) = decimal digits (signedExponent exponent - fractional) ∧ m ≤ uint64Max := by
  obtain ⟨negative, e⟩ := exponent
  cases negative with
  | true =>
    have hscale : signedExponent (true, e) - fractional = -((fractional + e : ℕ) : ℤ) := by
      unfold signedExponent
      rw [if_pos rfl]
      push_cast
      ring
    rw [hscale, eq_decimal_down, ← scaled_remove h hpos]
    unfold scaleBy
    dsimp only
    by_cases hbig : (e > digits.length || fractional > digits.length - e) = true
    · rw [if_pos hbig, Option.bind_none]
      have hremove : fractional + e > digits.length := by
        simp only [Bool.or_eq_true, decide_eq_true_eq] at hbig
        omega
      unfold scaled
      rw [if_pos (by simp [hremove])]
    · rw [if_neg hbig, Option.bind_some]
  | false =>
    have hsigned : signedExponent (false, e) = e := rfl
    rw [hsigned]
    unfold scaleBy
    dsimp only
    by_cases hge : e ≥ fractional
    · rw [show (e : ℤ) - fractional = ((e - fractional : ℕ) : ℤ) by omega, eq_decimal_up,
        if_pos hge, Option.bind_some, scaled_append h hpos]
    · rw [show (e : ℤ) - fractional = -((fractional - e : ℕ) : ℤ) by omega, eq_decimal_down,
        if_neg hge, Option.bind_some, scaled_remove h hpos]

theorem decimal_beyond (exponent : Bool × ℕ) {fractional bound m : ℕ} (h : AllDigits digits)
    (hpos : 1 ≤ readDigits 10 digits) (hlength : digits.length ≤ bound)
    (hfractional : fractional ≤ bound) (hbeyond : bound + 20 < exponent.2)
    (hm : (m : ℚ) = decimal digits (signedExponent exponent - fractional)) :
    ¬ m ≤ uint64Max := by
  have hlt := h.lt
  obtain ⟨negative, e⟩ := exponent
  dsimp only at hbeyond
  cases negative with
  | true =>
    have hscale : signedExponent (true, e) - fractional = -((fractional + e : ℕ) : ℤ) := by
      unfold signedExponent
      rw [if_pos rfl]
      push_cast
      ring
    rw [hscale, eq_decimal_down] at hm
    have hne : m ≠ 0 := by
      rintro rfl
      omega
    have hbig : 10 ^ digits.length ≤ m * 10 ^ (fractional + e) := by
      calc 10 ^ digits.length ≤ 10 ^ (fractional + e) := Nat.pow_le_pow_right (by decide) (by omega)
        _ = 1 * 10 ^ (fractional + e) := (Nat.one_mul _).symm
        _ ≤ _ := Nat.mul_le_mul_right _ (Nat.one_le_iff_ne_zero.mpr hne)
    omega
  | false =>
    have hsigned : signedExponent (false, e) = e := rfl
    rw [hsigned, show (e : ℤ) - fractional = ((e - fractional : ℕ) : ℤ) by omega,
      eq_decimal_up] at hm
    have hbig : 10 ^ 20 ≤ m := by
      calc 10 ^ 20 ≤ 10 ^ (e - fractional) := Nat.pow_le_pow_right (by decide) (by omega)
        _ = 1 * 10 ^ (e - fractional) := (Nat.one_mul _).symm
        _ ≤ readDigits 10 digits * 10 ^ (e - fractional) := Nat.mul_le_mul_right _ hpos
        _ = m := hm.symm
    exact Nat.not_le.mpr (uint64Max_lt hbig)

end scale

/-! ### The parts of a token -/

/-- The most bytes a `std::string` can have. -/
def maxSize : ℕ := 2 ^ 63 - 1

theorem isDigit_plain {b : UInt8} (h : isDigit b = true) :
    isExponentMark b = false ∧ b ≠ 0x2e ∧ b ≠ 0x2d ∧ b ≠ 0x2b := by
  unfold isDigit at h
  rw [Bool.and_eq_true, decide_eq_true_eq, decide_eq_true_eq, UInt8.le_iff_toNat_le,
    UInt8.le_iff_toNat_le] at h
  have hlow : (0x30 : UInt8).toNat = 48 := rfl
  have hhigh : (0x39 : UInt8).toNat = 57 := rfl
  have hne : ∀ c : UInt8, c.toNat < 48 ∨ 57 < c.toNat → b ≠ c := by
    rintro c hc rfl
    omega
  refine ⟨?_, hne _ (by decide), hne _ (by decide), hne _ (by decide)⟩
  unfold isExponentMark
  rw [beq_false_of_ne (hne 0x65 (by decide)), beq_false_of_ne (hne 0x45 (by decide))]
  rfl

section parts

variable {int frac fraction exp : Bytes} {exponent : ℤ}

theorem mantissa_plain (hint : IntPart int) (hfrac : FracDigits frac fraction) :
    ∀ b ∈ int ++ frac, (!isExponentMark b) = true := by
  intro b hb
  rcases List.mem_append.mp hb with hb | hb
  · rw [(isDigit_plain (allDigits_int hint b hb)).1]
    rfl
  · cases hfrac with
    | absent => exact absurd hb List.not_mem_nil
    | digits ds hds =>
      rcases List.mem_cons.mp hb with rfl | hb
      · rfl
      · rw [(isDigit_plain (hds.2 b hb)).1]
        rfl

theorem exp_split (hexp : ExpValue exp exponent) :
    exp.takeWhile (fun b => !isExponentMark b) = [] ∧
      exp.dropWhile (fun b => !isExponentMark b) = exp := by
  cases hexp with
  | absent => exact ⟨rfl, rfl⟩
  | positive e sign ds he _ _ => simp [he]
  | negative e ds he _ => simp [he]

theorem takeWhile_mantissa (hint : IntPart int) (hfrac : FracDigits frac fraction)
    (hexp : ExpValue exp exponent) :
    (int ++ (frac ++ exp)).takeWhile (fun b => !isExponentMark b) = int ++ frac ∧
      (int ++ (frac ++ exp)).dropWhile (fun b => !isExponentMark b) = exp := by
  rw [← List.append_assoc]
  have hplain := mantissa_plain hint hfrac
  rw [List.takeWhile_append_of_pos hplain, List.dropWhile_append_of_pos hplain,
    (exp_split hexp).1, (exp_split hexp).2, List.append_nil]
  exact ⟨rfl, rfl⟩

theorem filter_digits {s : Bytes} (h : AllDigits s) : s.filter (· != 0x2e) = s := by
  rw [List.filter_eq_self]
  intro b hb
  simpa using (isDigit_plain (h b hb)).2.1

theorem filter_mantissa (hint : IntPart int) (hfrac : FracDigits frac fraction) :
    (int ++ frac).filter (· != 0x2e) = int ++ fraction ∧
      ((int ++ frac).dropWhile (· != 0x2e)).filter (· != 0x2e) = fraction := by
  have hskip : ∀ b ∈ int, (b != 0x2e) = true := by
    intro b hb
    simpa using (isDigit_plain (allDigits_int hint b hb)).2.1
  rw [List.filter_append, filter_digits (allDigits_int hint), List.dropWhile_append_of_pos hskip]
  cases hfrac with
  | absent => exact ⟨rfl, rfl⟩
  | digits ds hds => simp [filter_digits hds.2]

theorem exponentPart_eq (hint : IntPart int) (hfrac : FracDigits frac fraction)
    (hexp : ExpValue exp exponent) (hsize : (int ++ (frac ++ exp)).length ≤ maxSize) :
    ∃ e : Bool × ℕ, exponent = signedExponent e ∧
      exponentPart (int ++ (frac ++ exp)) =
        if e.2 ≤ (int ++ (frac ++ exp)).length + 20 then some e else none := by
  have hdrop := (takeWhile_mantissa hint hfrac hexp).2
  obtain ⟨n, hn⟩ : ∃ n, n = (int ++ (frac ++ exp)).length := ⟨_, rfl⟩
  have hsmall : ¬ n > sizeMax - 20 := by
    unfold maxSize at hsize
    unfold sizeMax
    omega
  have hread : ∀ ds, Digits ds → exponentOf (n + 20) 0 ds =
      if readDigits 10 ds ≤ n + 20 then some (readDigits 10 ds) else none :=
    fun ds hds => exponentOf_eq (by omega) hds.2 0 (Nat.zero_le _)
  have hhead : ∀ ds, Digits ds → (ds.head? == some 0x2d) = false ∧ (ds.head? == some 0x2b) = false := by
    rintro ds ⟨hne, hds⟩
    obtain ⟨d, rest, rfl⟩ := List.exists_cons_of_ne_nil hne
    have hd := isDigit_plain (hds d List.mem_cons_self)
    simp [hd.2.2.1, hd.2.2.2]
  unfold exponentPart
  rw [hdrop, ← hn]
  cases hexp with
  | absent => exact ⟨(false, 0), rfl, by simp⟩
  | positive e sign ds _ hsign hds =>
    refine ⟨(false, readDigits 10 ds), rfl, ?_⟩
    dsimp only
    rcases hsign with rfl | rfl
    · rw [List.nil_append, (hhead ds hds).1, (hhead ds hds).2]
      simp only [Bool.or_self, Bool.false_eq_true, if_false]
      rw [if_neg hsmall, hread ds hds]
      split
      · rfl
      · rfl
    · simp only [List.cons_append, List.nil_append, List.head?_cons, List.tail_cons,
        show (some (0x2b : UInt8) == some 0x2d) = false from rfl,
        show (some (0x2b : UInt8) == some 0x2b) = true from rfl, Bool.or_true, if_true]
      rw [if_neg hsmall, hread ds hds]
      split
      · rfl
      · rfl
  | negative e ds _ hds =>
    refine ⟨(true, readDigits 10 ds), rfl, ?_⟩
    simp only [List.head?_cons, List.tail_cons, show (some (0x2d : UInt8) == some 0x2d) = true from rfl,
      Bool.true_or, if_true]
    rw [if_neg hsmall, hread ds hds]
    split
    · rfl
    · rfl

/-- Coefficient and scale are normalised without loss. -/
theorem plainMagnitude_eq_some (hint : IntPart int) (hfrac : FracDigits frac fraction)
    (hexp : ExpValue exp exponent) (hsize : (int ++ (frac ++ exp)).length ≤ maxSize) (m : ℕ) :
    plainMagnitude (int ++ (frac ++ exp)) = some m ↔
      (m : ℚ) = decimal (int ++ fraction) (exponent - fraction.length) ∧ m ≤ uint64Max := by
  obtain ⟨e, rfl, hpart⟩ := exponentPart_eq hint hfrac hexp hsize
  have hall : AllDigits (int ++ fraction) := (allDigits_int hint).append hfrac.allDigits
  have hdigits : AllDigits ((int ++ fraction).dropWhile (· == 0x30)) :=
    fun b hb => hall b ((List.dropWhile_sublist _).subset hb)
  have hsame : ∀ k, decimal ((int ++ fraction).dropWhile (· == 0x30)) k =
      decimal (int ++ fraction) k := by
    intro k
    unfold decimal
    rw [readDigits_dropWhile_zero]
  unfold plainMagnitude
  simp only [(takeWhile_mantissa hint hfrac hexp).1, (filter_mantissa hint hfrac).1,
    (filter_mantissa hint hfrac).2]
  by_cases hzero : readDigits 10 (int ++ fraction) = 0
  · have hempty : (int ++ fraction).dropWhile (· == 0x30) = [] := by
      rw [List.dropWhile_eq_nil_iff]
      intro b hb
      simpa using (readDigits_eq_zero hall).mp hzero b hb
    rw [hempty, if_pos List.isEmpty_nil, Option.some_inj]
    unfold decimal
    rw [hzero, Nat.cast_zero, zero_mul, Nat.cast_eq_zero]
    constructor
    · rintro rfl
      exact ⟨rfl, Nat.zero_le _⟩
    · exact fun hm => hm.1.symm
  · have hpos : 1 ≤ readDigits 10 ((int ++ fraction).dropWhile (· == 0x30)) := by
      rw [readDigits_dropWhile_zero]
      omega
    have hne : ((int ++ fraction).dropWhile (· == 0x30)).isEmpty = false := by
      rw [List.isEmpty_eq_false_iff]
      intro hnil
      rw [hnil, readDigits_nil] at hpos
      omega
    rw [hne, ← hsame]
    simp only [Bool.false_eq_true, if_false]
    have hlength : ((int ++ fraction).dropWhile (· == 0x30)).length ≤
        (int ++ (frac ++ exp)).length ∧ fraction.length ≤ (int ++ (frac ++ exp)).length := by
      have hle := (List.dropWhile_sublist (fun b : UInt8 => b == 0x30)
        (l := int ++ fraction)).length_le
      have hfl : fraction.length ≤ frac.length := by
        cases hfrac with
        | absent => exact Nat.le_refl _
        | digits ds _ => exact Nat.le_succ _
      simp only [List.length_append] at hle ⊢
      omega
    rw [hpart]
    split
    · exact scaleBy_eq e fraction.length m hdigits hpos
    · rename_i hbeyond
      constructor
      · intro hnone
        cases hnone
      · rintro ⟨hm, hle⟩
        exact absurd hle (decimal_beyond e hdigits hpos hlength.1 hlength.2 (by omega) hm)

end parts

/-! ### Integers of a type -/

theorem inRange_eq_some {signed : Bool} {bits : ℕ} (_ : 0 < bits) (negative : Bool) (m : ℕ)
    (n : ℤ) : inRange signed bits negative m = some n ↔
      n = (if negative then -(m : ℤ) else m) ∧ InType signed bits n := by
  have hpow : ((2 ^ (bits - 1) : ℕ) : ℤ) = 2 ^ (bits - 1) := by push_cast; rfl
  have hpow' : ((2 ^ bits : ℕ) : ℤ) = 2 ^ bits := by push_cast; rfl
  have hpos : 0 < 2 ^ (bits - 1) := Nat.two_pow_pos _
  have hpos' : 0 < 2 ^ bits := Nat.two_pow_pos _
  unfold inRange InType
  cases signed with
  | true =>
    simp only [if_true]
    cases negative with
    | true =>
      simp only [if_true]
      split
      · simp only [reduceCtorEq, false_iff, not_and]
        omega
      · rw [Option.some_inj]
        omega
    | false =>
      simp only [Bool.false_eq_true, if_false]
      split
      · simp only [reduceCtorEq, false_iff, not_and]
        omega
      · rw [Option.some_inj]
        omega
  | false =>
    simp only [Bool.false_eq_true, if_false]
    cases negative with
    | true =>
      simp only [Bool.true_and, if_true]
      split
      · rename_i hout
        simp only [Bool.or_eq_true, bne_iff_ne, decide_eq_true_eq] at hout
        simp only [reduceCtorEq, false_iff, not_and]
        omega
      · rename_i hin
        simp only [Bool.or_eq_true, bne_iff_ne, decide_eq_true_eq] at hin
        rw [Option.some_inj]
        omega
    | false =>
      simp only [Bool.false_and, Bool.false_or, Bool.false_eq_true, if_false]
      split
      · rename_i hout
        rw [decide_eq_true_eq] at hout
        simp only [reduceCtorEq, false_iff, not_and]
        omega
      · rename_i hin
        rw [decide_eq_true_eq] at hin
        rw [Option.some_inj]
        omega

theorem natAbs_le_of_inType {signed : Bool} {bits : ℕ} (hbits : bits ≤ 64) {n : ℤ}
    (h : InType signed bits n) : n.natAbs ≤ uint64Max := by
  have hp : (2 : ℤ) ^ bits ≤ 2 ^ 64 := pow_le_pow_right₀ (by decide) hbits
  have hp' : (2 : ℤ) ^ (bits - 1) ≤ 2 ^ 63 := pow_le_pow_right₀ (by decide) (by omega)
  unfold InType at h
  unfold uint64Max
  cases signed with
  | true =>
    rw [if_pos rfl] at h
    omega
  | false =>
    rw [if_neg (by decide)] at h
    omega

theorem bind_inRange {signed : Bool} {bits : ℕ} (hbits : 0 < bits) (hbits' : bits ≤ 64)
    (negative : Bool) {magnitude : Option ℕ} {d : ℚ}
    (h : ∀ m, magnitude = some m ↔ (m : ℚ) = d ∧ m ≤ uint64Max) (n : ℤ) :
    magnitude.bind (inRange signed bits negative) = some n ↔
      (if negative then -1 else 1) * d = n ∧ 0 ≤ d ∧ InType signed bits n := by
  rw [Option.bind_eq_some_iff]
  constructor
  · rintro ⟨m, hm, hrange⟩
    obtain ⟨rfl, -⟩ := (h m).mp hm
    obtain ⟨rfl, htype⟩ := (inRange_eq_some hbits negative m n).mp hrange
    refine ⟨?_, Nat.cast_nonneg m, htype⟩
    cases negative with
    | true => simp
    | false => simp
  · rintro ⟨hn, hpos, htype⟩
    have hd : ((n.natAbs : ℕ) : ℚ) = d := by
      cases negative with
      | true =>
        rw [if_pos rfl, neg_one_mul] at hn
        have hle : n ≤ 0 := by
          have : (n : ℚ) ≤ 0 := by rw [← hn]; linarith
          exact_mod_cast this
        have habs : ((n.natAbs : ℕ) : ℤ) = -n := by omega
        calc ((n.natAbs : ℕ) : ℚ) = (((n.natAbs : ℕ) : ℤ) : ℚ) := (Int.cast_natCast _).symm
          _ = d := by rw [habs]; push_cast; linarith
      | false =>
        rw [if_neg (by decide), one_mul] at hn
        have hle : 0 ≤ n := by
          have : (0 : ℚ) ≤ n := by rw [← hn]; exact hpos
          exact_mod_cast this
        have habs : ((n.natAbs : ℕ) : ℤ) = n := by omega
        calc ((n.natAbs : ℕ) : ℚ) = (((n.natAbs : ℕ) : ℤ) : ℚ) := (Int.cast_natCast _).symm
          _ = d := by rw [habs, hn]
    refine ⟨n.natAbs, (h _).mpr ⟨hd, natAbs_le_of_inType hbits' htype⟩, ?_⟩
    rw [inRange_eq_some hbits]
    refine ⟨?_, htype⟩
    generalize n.natAbs = m at hd ⊢
    have hsign : (if negative then -(m : ℚ) else m) = n := by
      rw [hd, ← hn]
      cases negative with
      | true => simp
      | false => simp
    cases negative with
    | true =>
      simp only [if_true] at hsign ⊢
      exact_mod_cast hsign.symm
    | false =>
      simp only [Bool.false_eq_true, if_false] at hsign ⊢
      exact_mod_cast hsign.symm

theorem int_head {int : Bytes} (h : IntPart int) (rest : Bytes) :
    ((int ++ rest).head? == some 0x2d) = false ∧ (int ++ rest).isEmpty = false := by
  have hall := allDigits_int h
  cases h with
  | zero => exact ⟨rfl, rfl⟩
  | digits d ds hd _ _ =>
    have hne := (isDigit_plain hd).2.2.1
    exact ⟨by simp [hne], rfl⟩

theorem jsonInteger_number {signed : Bool} {bits : ℕ} (hbits : 0 < bits) (hbits' : bits ≤ 64)
    {t : Bytes} {q : ℚ} (h : Denotes t q) (hsize : t.length ≤ maxSize) (n : ℤ) :
    jsonInteger signed bits (Value.numberText t) = some n ↔ q = n ∧ InType signed bits n := by
  obtain ⟨negative, int, frac, fraction, exp, exponent, hint, hfrac, hexp, rfl, rfl⟩ := h
  have hrest : (int ++ (frac ++ exp)).length ≤ maxSize := by
    rw [List.length_append] at hsize
    omega
  have hexact := @bind_inRange signed bits hbits hbits' negative _ _
    (plainMagnitude_eq_some hint hfrac hexp hrest) n
  have hpos : 0 ≤ decimal (int ++ fraction) (exponent - fraction.length) := by
    unfold decimal
    positivity
  have hhead := int_head hint (frac ++ exp)
  have hread : jsonInteger signed bits (Value.numberText
      ((if negative then [0x2d] else []) ++ (int ++ (frac ++ exp)))) =
      (plainMagnitude (int ++ (frac ++ exp))).bind (inRange signed bits negative) := by
    unfold jsonInteger Value.numberText
    cases negative with
    | true =>
      simp only [if_true, List.cons_append, List.nil_append, List.isEmpty_cons, List.head?_cons,
        beq_self_eq_true, List.tail_cons, hhead.2, Bool.false_eq_true, if_false]
    | false =>
      simp only [Bool.false_eq_true, if_false, List.nil_append, hhead.1, hhead.2]
  rw [hread, hexact]
  constructor
  · exact fun hn => ⟨hn.1, hn.2.2⟩
  · exact fun hn => ⟨hn.1, hpos, hn.2⟩

/-! ### Quoted numerals -/

/-- A decimal, octal or hexadecimal numeral and its value. -/
inductive Numeral : Bytes → ℕ → Prop
  | zero : Numeral [0x30] 0
  | decimal (d : UInt8) (ds : Bytes) : d ≠ 0x30 → (∀ b ∈ d :: ds, charDigit b < 10) →
      Numeral (d :: ds) (readDigits 10 (d :: ds))
  | octal (ds : Bytes) : ds ≠ [] → (∀ b ∈ ds, charDigit b < 8) →
      Numeral (0x30 :: ds) (readDigits 8 ds)
  | hex (x : UInt8) (ds : Bytes) : x = 0x78 ∨ x = 0x58 → ds ≠ [] → (∀ b ∈ ds, charDigit b < 16) →
      Numeral (0x30 :: x :: ds) (readDigits 16 ds)

/-- White space, a sign or none, a numeral, white space. -/
def QuotedInteger (text : Bytes) (n : ℤ) : Prop :=
  ∃ before sign body after m, (∀ b ∈ before, isSpace b = true) ∧ (∀ b ∈ after, isSpace b = true) ∧
    (sign = [] ∨ sign = [0x2b] ∨ sign = [0x2d]) ∧ Numeral body m ∧
    text = before ++ (sign ++ (body ++ after)) ∧ n = if sign = [0x2d] then -(m : ℤ) else m

theorem fromCharsAll_eq_some {base : ℕ} {s : Bytes} {m : ℕ} :
    fromCharsAll base s = some m ↔ s ≠ [] ∧ (∀ b ∈ s, charDigit b < base) ∧
      m = readDigits base s ∧ m ≤ uint64Max := by
  have hany : (s.isEmpty || s.any fun b => decide (base ≤ charDigit b)) = true ↔
      ¬ (s ≠ [] ∧ ∀ b ∈ s, charDigit b < base) := by
    rw [Bool.or_eq_true, List.isEmpty_iff, List.any_eq_true, not_and_or, not_not]
    simp
  unfold fromCharsAll
  split
  · rename_i hbad
    simp only [reduceCtorEq, false_iff]
    rintro ⟨hne, hall, -⟩
    exact hany.mp hbad ⟨hne, hall⟩
  · rename_i hgood
    have hboth := not_not.mp fun hx => hgood (hany.mpr hx)
    split
    · simp only [reduceCtorEq, false_iff]
      rintro ⟨-, -, rfl, hle⟩
      omega
    · rw [Option.some_inj]
      constructor
      · rintro rfl
        exact ⟨hboth.1, hboth.2, rfl, by omega⟩
      · exact fun h => h.2.2.1.symm

theorem quotedMagnitude_eq_some {body : Bytes} {m : ℕ} :
    quotedMagnitude body = some m ↔ Numeral body m ∧ m ≤ uint64Max := by
  match body with
  | [] =>
    constructor
    · intro h
      cases h
    · rintro ⟨h, -⟩
      cases h
  | [d] =>
    have hone : quotedMagnitude [d] = fromCharsAll 10 [d] := rfl
    rw [hone, fromCharsAll_eq_some]
    constructor
    · rintro ⟨-, hall, rfl, hle⟩
      refine ⟨?_, hle⟩
      by_cases hd : d = 0x30
      · rw [hd]
        exact .zero
      · exact .decimal d [] hd hall
    · rintro ⟨hn, hle⟩
      cases hn with
      | zero =>
        refine ⟨by decide, fun b hb => ?_, rfl, hle⟩
        rw [List.mem_singleton.mp hb]
        decide
      | decimal _ _ hd hall => exact ⟨List.cons_ne_nil _ _, hall, rfl, hle⟩
      | octal ds hne _ => exact absurd rfl hne
  | d :: x :: ds =>
    unfold quotedMagnitude
    by_cases hd : d = 0x30
    · rw [hd]
      simp only [List.length_cons, List.head?_cons, beq_self_eq_true, Bool.and_true,
        show ((ds.length + 1 + 1 > 1)) = True by simp, decide_true, if_true, List.getD_cons_succ,
        List.getD_cons_zero, List.drop_succ_cons, List.drop_zero]
      by_cases hx : x = 0x78 ∨ x = 0x58
      · rw [if_pos (by simpa using hx), fromCharsAll_eq_some]
        constructor
        · rintro ⟨hne, hall, rfl, hle⟩
          exact ⟨.hex x ds hx hne hall, hle⟩
        · rintro ⟨hn, hle⟩
          cases hn with
          | decimal _ _ hd' _ => exact absurd rfl hd'
          | octal _ _ hall =>
            have hx' := hall x List.mem_cons_self
            rcases hx with rfl | rfl
            · exact absurd hx' (by decide)
            · exact absurd hx' (by decide)
          | hex _ _ _ hne hall => exact ⟨hne, hall, rfl, hle⟩
      · rw [if_neg (by simpa using hx), fromCharsAll_eq_some]
        have hzero : readDigits 8 (0x30 :: x :: ds) = readDigits 8 (x :: ds) := rfl
        constructor
        · rintro ⟨-, hall, rfl, hle⟩
          rw [hzero] at hle ⊢
          exact ⟨.octal (x :: ds) (List.cons_ne_nil _ _)
            fun b hb => hall b (List.mem_cons_of_mem _ hb), hle⟩
        · rintro ⟨hn, hle⟩
          cases hn with
          | decimal _ _ hd' _ => exact absurd rfl hd'
          | octal _ _ hall =>
            refine ⟨List.cons_ne_nil _ _, ?_, hzero.symm, hle⟩
            intro b hb
            rcases List.mem_cons.mp hb with rfl | hb
            · decide
            · exact hall b hb
          | hex _ _ hx' _ _ => exact absurd hx' hx
    · rw [if_neg (by simp [hd]), fromCharsAll_eq_some]
      constructor
      · rintro ⟨-, hall, rfl, hle⟩
        exact ⟨.decimal d (x :: ds) hd hall, hle⟩
      · rintro ⟨hn, hle⟩
        cases hn with
        | decimal _ _ _ hall => exact ⟨List.cons_ne_nil _ _, hall, rfl, hle⟩
        | octal _ _ _ => exact absurd rfl hd
        | hex _ _ _ _ _ => exact absurd rfl hd

/-- The digits of a numeral, and the `x`, are no white space and no sign. -/
theorem Numeral.plain {body : Bytes} {m : ℕ} (h : Numeral body m) :
    body ≠ [] ∧ ∀ b ∈ body, isSpace b = false ∧ b ≠ 0x2d ∧ b ≠ 0x2b := by
  have hplain : ∀ b : UInt8, charDigit b < 16 → isSpace b = false ∧ b ≠ 0x2d ∧ b ≠ 0x2b := by
    intro b hb
    refine ⟨?_, ?_, ?_⟩
    · by_contra hspace
      rw [Bool.not_eq_false] at hspace
      unfold isSpace at hspace
      simp only [Bool.or_eq_true, Bool.and_eq_true, beq_iff_eq, decide_eq_true_eq,
        UInt8.le_iff_toNat_le] at hspace
      have hlow : (0x09 : UInt8).toNat = 9 := rfl
      have hhigh : (0x0d : UInt8).toNat = 13 := rfl
      have hbad : charDigit b = 255 := by
        unfold charDigit
        rcases hspace with rfl | hspace
        · rfl
        · simp only [Bool.and_eq_true, decide_eq_true_eq, UInt8.le_iff_toNat_le]
          rw [if_neg, if_neg, if_neg]
          · rintro ⟨h, -⟩
            exact absurd h (by have : (0x41 : UInt8).toNat = 65 := rfl; omega)
          · rintro ⟨h, -⟩
            exact absurd h (by have : (0x61 : UInt8).toNat = 97 := rfl; omega)
          · rintro ⟨h, -⟩
            exact absurd h (by have : (0x30 : UInt8).toNat = 48 := rfl; omega)
      omega
    · rintro rfl
      exact absurd hb (by decide)
    · rintro rfl
      exact absurd hb (by decide)
  cases h with
  | zero => exact ⟨by decide, fun b hb => hplain b (by rw [List.mem_singleton.mp hb]; decide)⟩
  | decimal d ds _ hall =>
    exact ⟨List.cons_ne_nil _ _, fun b hb => hplain b (Nat.lt_trans (hall b hb) (by decide))⟩
  | octal ds _ hall =>
    refine ⟨List.cons_ne_nil _ _, fun b hb => hplain b ?_⟩
    rcases List.mem_cons.mp hb with rfl | hb
    · decide
    · exact Nat.lt_trans (hall b hb) (by decide)
  | hex x ds hx _ hall =>
    refine ⟨List.cons_ne_nil _ _, fun b hb => ?_⟩
    rcases List.mem_cons.mp hb with rfl | hb
    · exact hplain _ (by decide)
    · rcases List.mem_cons.mp hb with rfl | hb
      · rcases hx with rfl | rfl
        · decide
        · decide
      · exact hplain b (hall b hb)

theorem trimSpace_append {before core after : Bytes} (hbefore : ∀ b ∈ before, isSpace b = true)
    (hafter : ∀ b ∈ after, isSpace b = true) (hcore : ∀ b ∈ core, isSpace b = false) :
    trimSpace (before ++ (core ++ after)) = core :=
  Slices.trim_append hbefore hafter hcore

theorem trimSpace_split (s : Bytes) : ∃ before after, (∀ b ∈ before, isSpace b = true) ∧
    (∀ b ∈ after, isSpace b = true) ∧ s = before ++ (trimSpace s ++ after) :=
  Slices.trim_split isSpace s

theorem jsonInteger_string {signed : Bool} {bits : ℕ} (hbits : 0 < bits) (hbits' : bits ≤ 64)
    (text : Bytes) (n : ℤ) :
    jsonInteger signed bits (Value.string text) = some n ↔
      QuotedInteger text n ∧ InType signed bits n := by
  -- the reader on a trimmed token, by its sign
  have hread : ∀ sign body : Bytes, (sign = [] ∨ sign = [0x2b] ∨ sign = [0x2d]) → body ≠ [] →
      (sign = [] → body.head? ≠ some 0x2d ∧ body.head? ≠ some 0x2b) →
      trimSpace text = sign ++ body →
      jsonInteger signed bits (Value.string text) =
        (quotedMagnitude body).bind (inRange signed bits (decide (sign = [0x2d]))) := by
    intro sign body hsign hne hhead htrim
    have hempty : body.isEmpty = false := List.isEmpty_eq_false_iff.mpr hne
    unfold jsonInteger Value.string
    simp only [htrim]
    rcases hsign with rfl | rfl | rfl
    · obtain ⟨h₁, h₂⟩ := hhead rfl
      simp only [List.nil_append, hempty, Bool.false_eq_true, if_false, beq_false_of_ne h₁,
        beq_false_of_ne h₂, Bool.or_self]
      rfl
    · simp only [List.cons_append, List.nil_append, List.isEmpty_cons, Bool.false_eq_true, if_false,
        List.head?_cons, show (some (0x2b : UInt8) == some 0x2d) = false from rfl,
        beq_self_eq_true, Bool.or_true, if_true, List.tail_cons, hempty]
      rfl
    · simp only [List.cons_append, List.nil_append, List.isEmpty_cons, Bool.false_eq_true, if_false,
        List.head?_cons, beq_self_eq_true, Bool.true_or, if_true, List.tail_cons, hempty]
      rfl
  have hrange : ∀ sign body : Bytes,
      ((quotedMagnitude body).bind (inRange signed bits (decide (sign = [0x2d]))) = some n ↔
        (∃ m, Numeral body m ∧ n = if sign = [0x2d] then -(m : ℤ) else m) ∧
          InType signed bits n) := by
    intro sign body
    rw [Option.bind_eq_some_iff]
    constructor
    · rintro ⟨m, hm, hin⟩
      obtain ⟨hn, htype⟩ := (inRange_eq_some hbits _ _ _).mp hin
      exact ⟨⟨m, (quotedMagnitude_eq_some.mp hm).1, by simpa using hn⟩, htype⟩
    · rintro ⟨⟨m, hm, hn⟩, htype⟩
      refine ⟨m, quotedMagnitude_eq_some.mpr ⟨hm, ?_⟩,
        (inRange_eq_some hbits _ _ _).mpr ⟨by simpa using hn, htype⟩⟩
      have hle := natAbs_le_of_inType hbits' htype
      have habs : n.natAbs = m := by
        rw [hn]
        split
        · omega
        · omega
      omega
  constructor
  · intro h
    obtain ⟨before, after, hbefore, hafter, htext⟩ := trimSpace_split text
    obtain ⟨sign, body, hsign, hhead, htrim⟩ : ∃ sign body : Bytes,
        (sign = [] ∨ sign = [0x2b] ∨ sign = [0x2d]) ∧
        (sign = [] → body.head? ≠ some 0x2d ∧ body.head? ≠ some 0x2b) ∧
        trimSpace text = sign ++ body := by
      by_cases hminus : (trimSpace text).head? = some 0x2d
      · exact ⟨[0x2d], (trimSpace text).tail, by simp, by simp,
          (List.cons_head?_tail hminus).symm⟩
      · by_cases hplus : (trimSpace text).head? = some 0x2b
        · exact ⟨[0x2b], (trimSpace text).tail, by simp, by simp,
            (List.cons_head?_tail hplus).symm⟩
        · exact ⟨[], trimSpace text, by simp, fun _ => ⟨hminus, hplus⟩, rfl⟩
    by_cases hne : body = []
    · -- nothing but a sign is no numeral
      exfalso
      unfold jsonInteger Value.string at h
      rw [hne, List.append_nil] at htrim
      simp only [htrim] at h
      rcases hsign with rfl | rfl | rfl
      · cases h
      · cases h
      · cases h
    · rw [hread sign body hsign hne hhead htrim, hrange] at h
      obtain ⟨⟨m, hm, hn⟩, htype⟩ := h
      refine ⟨⟨before, sign, body, after, m, hbefore, hafter, hsign, hm, ?_, hn⟩, htype⟩
      rw [htrim, List.append_assoc] at htext
      exact htext
  · rintro ⟨⟨before, sign, body, after, m, hbefore, hafter, hsign, hm, htext, hn⟩, htype⟩
    obtain ⟨hne, hplain⟩ := hm.plain
    have htrim : trimSpace text = sign ++ body := by
      rw [htext, ← List.append_assoc sign]
      refine trimSpace_append hbefore hafter fun b hb => ?_
      rcases List.mem_append.mp hb with hb | hb
      · rcases hsign with rfl | rfl | rfl
        · exact absurd hb List.not_mem_nil
        · rw [List.mem_singleton.mp hb]
          rfl
        · rw [List.mem_singleton.mp hb]
          rfl
      · exact (hplain b hb).1
    have hhead : body.head? ≠ some 0x2d ∧ body.head? ≠ some 0x2b :=
      ⟨fun h => (hplain _ (List.mem_of_mem_head? h)).2.1 rfl,
        fun h => (hplain _ (List.mem_of_mem_head? h)).2.2 rfl⟩
    rw [hread sign body hsign hne (fun _ => hhead) htrim, hrange]
    exact ⟨⟨m, hm, hn⟩, htype⟩

/-! ### No step overflows -/

/-- The result of an operation on `size_t` or `uint64_t`, unless it wraps. -/
def word (n : ℤ) : Option ℕ :=
  if 0 ≤ n ∧ n ≤ uint64Max then some n.toNat else none

theorem word_eq {n : ℤ} (k : ℕ) (h : n = k) (hk : k ≤ uint64Max) : word n = some k := by
  unfold word
  rw [h, if_pos (by omega), Int.toNat_natCast]

/-- `exponentOf` over words.  The outer option is `none` where an operation wraps. -/
def exponentOfWord (bound : ℕ) : ℕ → Bytes → Option (Option ℕ)
  | exponent, [] => some (some exponent)
  | exponent, c :: s => do
    let digit ← word ((c.toNat : ℤ) - 0x30)
    let room ← word ((bound : ℤ) - digit)
    if exponent > room / 10 then some none
    else do
      let tens ← word ((exponent : ℤ) * 10)
      let next ← word ((tens : ℤ) + digit)
      exponentOfWord bound next s

def exponentPartWord (token : Bytes) : Option (Option (Bool × ℕ)) :=
  match token.dropWhile (fun b => !isExponentMark b) with
  | [] => some (some (false, 0))
  | _ :: s => do
    let negative := s.head? == some 0x2d
    let s := if negative || s.head? == some 0x2b then s.tail else s
    let limit ← word ((sizeMax : ℤ) - 20)
    if token.length > limit then some none
    else do
      let bound ← word ((token.length : ℤ) + 20)
      let exponent ← exponentOfWord bound 0 s
      return exponent.map fun e => (negative, e)

def scaleByWord (digits fractional : ℕ) : Bool × ℕ → Option (Option (ℕ × ℕ))
  | (true, exponent) =>
    if exponent > digits then some none
    else do
      let left ← word ((digits : ℤ) - exponent)
      if fractional > left then some none
      else do
        let remove ← word ((fractional : ℤ) + exponent)
        return some (remove, 0)
  | (false, exponent) =>
    if exponent ≥ fractional then do
      let append ← word ((exponent : ℤ) - fractional)
      return some (0, append)
    else do
      let remove ← word ((fractional : ℤ) - exponent)
      return some (remove, 0)

/-- The digits that stay and the zeros that come, over words. -/
def scaledWord (digits : Bytes) (remove append : ℕ) : Option (Option ℕ) :=
  if remove > digits.length || append > 20 then some none
  else do
    let stop ← word ((digits.length : ℤ) - remove)
    if (digits.drop stop).any (· != 0x30) then some none
    else do
      let _ ← word ((stop : ℤ) + append)
      exponentOfWord uint64Max 0 (digits.take stop ++ List.replicate append 0x30)

def plainMagnitudeWord (token : Bytes) : Option (Option ℕ) :=
  let mantissa := token.takeWhile fun b => !isExponentMark b
  let fractional := ((mantissa.dropWhile (· != 0x2e)).filter (· != 0x2e)).length
  let digits := (mantissa.filter (· != 0x2e)).dropWhile (· == 0x30)
  if digits.isEmpty then some (some 0)
  else do
    match ← exponentPartWord token with
    | none => some none
    | some exponent =>
      match ← scaleByWord digits.length fractional exponent with
      | none => some none
      | some (remove, append) => scaledWord digits remove append

def signedValue (bits : ℕ) (n : ℤ) : Option ℤ :=
  if -(2 ^ (bits - 1)) ≤ n ∧ n < 2 ^ (bits - 1) then some n else none

/-- `inRange` with the source's own steps for a signed type. -/
def inRangeWord (signed : Bool) (bits : ℕ) (negative : Bool) (magnitude : ℕ) :
    Option (Option ℤ) :=
  if signed then do
    let maximum := 2 ^ (bits - 1) - 1
    let limit ← word ((maximum : ℕ) + if negative then 1 else 0)
    if magnitude > limit then some none
    else do
      let past ← word ((maximum : ℕ) + 1)
      if negative && magnitude == past then some (some (-(2 ^ (bits - 1))))
      else do
        let result ← signedValue bits magnitude
        if negative then do
          let opposite ← signedValue bits (-result)
          return some opposite
        else return some result
  else if (negative && magnitude != 0) || decide (magnitude > 2 ^ bits - 1) then some none
  else some (some magnitude)

/-- `jsonInteger` for a number token, over words. -/
def numberWord (signed : Bool) (bits : ℕ) (token : Bytes) : Option (Option ℤ) :=
  if token.isEmpty then some none
  else
    let negative := token.head? == some 0x2d
    let token := if negative then token.tail else token
    if token.isEmpty then some none
    else do
      match ← plainMagnitudeWord token with
      | none => some none
      | some magnitude => inRangeWord signed bits negative magnitude

theorem exponentOfWord_eq {bound : ℕ} (hbound : 9 ≤ bound) (hword : bound ≤ uint64Max) {s : Bytes}
    (h : AllDigits s) (e : ℕ) : exponentOfWord bound e s = some (exponentOf bound e s) := by
  induction s generalizing e with
  | nil => rfl
  | cons b s ih =>
    obtain ⟨hvalue, hlt⟩ := charDigit_of_isDigit (h b List.mem_cons_self)
    have hlow : 48 ≤ b.toNat := by
      have hb := h b List.mem_cons_self
      unfold isDigit at hb
      rw [Bool.and_eq_true, decide_eq_true_eq, UInt8.le_iff_toNat_le] at hb
      exact hb.1
    rw [exponentOfWord, exponentOf, word_eq (b.toNat - 0x30) (by omega) (by unfold uint64Max; omega)]
    simp only [Option.bind_eq_bind, Option.bind_some]
    rw [word_eq (bound - (b.toNat - 0x30)) (by omega) (by omega)]
    simp only [Option.bind_some]
    split
    · rfl
    · rename_i hroom
      rw [word_eq (e * 10) (by omega) (by omega)]
      simp only [Option.bind_some]
      rw [word_eq (e * 10 + (b.toNat - 0x30)) (by omega) (by omega)]
      exact ih (fun c hc => h c (List.mem_cons_of_mem _ hc)) _

theorem exponentPartWord_eq {int frac fraction exp : Bytes} {exponent : ℤ} (hint : IntPart int)
    (hfrac : FracDigits frac fraction) (hexp : ExpValue exp exponent)
    (hsize : (int ++ (frac ++ exp)).length ≤ maxSize) :
    exponentPartWord (int ++ (frac ++ exp)) = some (exponentPart (int ++ (frac ++ exp))) := by
  have hdrop := (takeWhile_mantissa hint hfrac hexp).2
  unfold exponentPartWord exponentPart
  rw [hdrop]
  generalize (int ++ (frac ++ exp)).length = n at hsize
  have hsmall : n + 20 ≤ uint64Max := by
    unfold maxSize at hsize
    unfold uint64Max
    omega
  have hlimit : word ((sizeMax : ℤ) - 20) = some (sizeMax - 20) := by decide
  have hread : ∀ (negative : Bool) (ds : Bytes), AllDigits ds →
      (exponentOfWord (n + 20) 0 ds >>= fun exponent =>
        pure (exponent.map fun e => (negative, e))) =
        some ((exponentOf (n + 20) 0 ds).map fun e => (negative, e)) := by
    intro negative ds hds
    rw [exponentOfWord_eq (by omega) hsmall hds]
    rfl
  have htail : ∀ (sign ds : Bytes), (sign = [] ∨ sign = [0x2b]) ∨ sign = [0x2d] → Digits ds →
      AllDigits (if ((sign ++ ds).head? == some 0x2d || (sign ++ ds).head? == some 0x2b) then
        (sign ++ ds).tail else sign ++ ds) := by
    rintro sign ds hsign ⟨hne, hds⟩
    obtain ⟨d, rest, rfl⟩ := List.exists_cons_of_ne_nil hne
    have hd := isDigit_plain (hds d List.mem_cons_self)
    rcases hsign with (rfl | rfl) | rfl
    · rw [if_neg (by simp [hd.2.2.1, hd.2.2.2])]
      exact hds
    · exact hds
    · exact hds
  cases hexp with
  | absent => rfl
  | positive e sign ds _ hsign hds =>
    dsimp only
    rw [hlimit]
    simp only [Option.bind_eq_bind, Option.bind_some]
    split
    · rfl
    · rw [word_eq (n + 20) (by push_cast; rfl) hsmall]
      exact hread _ _ (htail sign ds (Or.inl hsign) hds)
  | negative e ds _ hds =>
    dsimp only
    rw [hlimit]
    simp only [Option.bind_eq_bind, Option.bind_some]
    split
    · rfl
    · rw [word_eq (n + 20) (by push_cast; rfl) hsmall]
      exact hread _ _ (htail [0x2d] ds (Or.inr rfl) hds)

theorem scaleByWord_eq {digits fractional : ℕ} {exponent : Bool × ℕ} (hdigits : digits ≤ maxSize)
    (hfractional : fractional ≤ maxSize) (hexponent : exponent.2 ≤ maxSize + 20) :
    scaleByWord digits fractional exponent = some (scaleBy digits fractional exponent) := by
  have hmax : maxSize + 20 ≤ uint64Max := by decide
  obtain ⟨negative, e⟩ := exponent
  dsimp only at hexponent
  unfold scaleByWord scaleBy
  cases negative with
  | true =>
    dsimp only
    by_cases hbig : e > digits
    · rw [if_pos hbig, if_pos (by simp [hbig])]
    · rw [if_neg hbig, word_eq (digits - e) (by omega) (by omega)]
      simp only [Option.bind_eq_bind, Option.bind_some]
      by_cases hfrac : fractional > digits - e
      · rw [if_pos hfrac, if_pos (by simp [hfrac])]
      · rw [if_neg hfrac, if_neg (by simp [hbig, hfrac]),
          word_eq (fractional + e) (by push_cast; rfl) (by omega)]
        rfl
  | false =>
    dsimp only
    by_cases hge : e ≥ fractional
    · rw [if_pos hge, if_pos hge, word_eq (e - fractional) (by omega) (by omega)]
      rfl
    · rw [if_neg hge, if_neg hge, word_eq (fractional - e) (by omega) (by omega)]
      rfl

theorem scaledWord_eq {digits : Bytes} (h : AllDigits digits) (hlength : digits.length ≤ maxSize)
    (remove append : ℕ) : scaledWord digits remove append = some (scaled digits remove append) := by
  have hmax : maxSize + 20 ≤ uint64Max := by decide
  unfold scaledWord scaled
  by_cases hbig : (remove > digits.length || append > 20) = true
  · rw [if_pos hbig, if_pos hbig]
  · rw [if_neg hbig, if_neg hbig]
    simp only [Bool.or_eq_true, decide_eq_true_eq, not_or] at hbig
    rw [word_eq (digits.length - remove) (by omega) (by omega)]
    simp only [Option.bind_eq_bind, Option.bind_some]
    split
    · rfl
    · rw [word_eq (digits.length - remove + append) (by omega) (by omega)]
      have hall : AllDigits (digits.take (digits.length - remove) ++
          List.replicate append 0x30) := by
        refine AllDigits.append (fun b hb => h b ((List.take_subset _ _) hb)) fun b hb => ?_
        rw [(List.mem_replicate.mp hb).2]
        rfl
      rw [accumulate_eq_exponentOf]
      exact exponentOfWord_eq (by decide) (Nat.le_refl _) hall 0

theorem plainMagnitudeWord_eq {int frac fraction exp : Bytes} {exponent : ℤ} (hint : IntPart int)
    (hfrac : FracDigits frac fraction) (hexp : ExpValue exp exponent)
    (hsize : (int ++ (frac ++ exp)).length ≤ maxSize) :
    plainMagnitudeWord (int ++ (frac ++ exp)) = some (plainMagnitude (int ++ (frac ++ exp))) := by
  obtain ⟨e, -, hpart⟩ := exponentPart_eq hint hfrac hexp hsize
  have hall : AllDigits (int ++ fraction) := (allDigits_int hint).append hfrac.allDigits
  have hlength : ((int ++ fraction).dropWhile (· == 0x30)).length ≤ maxSize ∧
      fraction.length ≤ maxSize := by
    have hle := (List.dropWhile_sublist (fun b : UInt8 => b == 0x30)
      (l := int ++ fraction)).length_le
    have hfl : fraction.length ≤ frac.length := by
      cases hfrac with
      | absent => exact Nat.le_refl _
      | digits ds _ => exact Nat.le_succ _
    simp only [List.length_append] at hle hsize
    omega
  unfold plainMagnitudeWord plainMagnitude
  simp only [(takeWhile_mantissa hint hfrac hexp).1, (filter_mantissa hint hfrac).1,
    (filter_mantissa hint hfrac).2, exponentPartWord_eq hint hfrac hexp hsize, hpart]
  split
  · rfl
  · simp only [Option.bind_eq_bind, Option.bind_some]
    by_cases hbound : e.2 ≤ (int ++ (frac ++ exp)).length + 20
    · simp only [if_pos hbound, Option.bind_some]
      rw [scaleByWord_eq hlength.1 hlength.2 (by omega)]
      simp only [Option.bind_some]
      cases scaleBy ((int ++ fraction).dropWhile (· == 0x30)).length fraction.length e with
      | none => rfl
      | some scale =>
        exact scaledWord_eq (fun b hb => hall b ((List.dropWhile_sublist _).subset hb)) hlength.1 _ _
    · simp only [if_neg hbound, Option.bind_none]

theorem inRangeWord_eq {signed : Bool} {bits : ℕ} (hbits' : bits ≤ 64) (negative : Bool) (m : ℕ) :
    inRangeWord signed bits negative m = some (inRange signed bits negative m) := by
  cases signed with
  | false =>
    unfold inRangeWord inRange
    simp only [Bool.false_eq_true, if_false]
    split
    · rfl
    · rfl
  | true =>
    obtain ⟨p, hp⟩ : ∃ p, p = 2 ^ (bits - 1) := ⟨_, rfl⟩
    have hpow : (2 : ℤ) ^ (bits - 1) = p := by rw [hp]; push_cast; rfl
    have hpos : 0 < p := hp ▸ Nat.two_pow_pos _
    have hle : p ≤ 2 ^ 63 := hp ▸ Nat.pow_le_pow_right (by decide) (by omega)
    have hmax : 2 ^ 63 ≤ uint64Max := by decide
    unfold inRangeWord inRange signedValue
    simp only [if_true, hpow, ← hp, Option.bind_eq_bind]
    cases negative with
    | true =>
      rw [word_eq p (by simp only [if_true]; omega) (by omega)]
      simp only [Option.bind_some, if_true, show p - 1 + 1 = p by omega]
      by_cases hbig : m > p
      · rw [if_pos hbig, if_pos hbig]
      · rw [if_neg hbig, if_neg hbig, word_eq p (by omega) (by omega)]
        simp only [Option.bind_some, Bool.true_and, beq_iff_eq]
        by_cases hpast : m = p
        · rw [if_pos hpast, hpast]
        · rw [if_neg hpast, if_pos (by omega)]
          simp only [Option.bind_some]
          rw [if_pos (by omega)]
          rfl
    | false =>
      rw [word_eq (p - 1) (by simp only [Bool.false_eq_true, if_false]; omega) (by omega)]
      simp only [Option.bind_some, Bool.false_eq_true, if_false, Nat.add_zero, Bool.false_and]
      by_cases hbig : m > p - 1
      · rw [if_pos hbig, if_pos hbig]
      · rw [if_neg hbig, if_neg hbig, word_eq p (by omega) (by omega)]
        simp only [Option.bind_some]
        rw [if_pos (by omega)]
        rfl

theorem numberWord_eq {signed : Bool} {bits : ℕ} (hbits' : bits ≤ 64)
    {t : Bytes} {q : ℚ} (h : Denotes t q) (hsize : t.length ≤ maxSize) :
    numberWord signed bits t = some (jsonInteger signed bits (Value.numberText t)) := by
  obtain ⟨negative, int, frac, fraction, exp, exponent, hint, hfrac, hexp, rfl, -⟩ := h
  have hrest : (int ++ (frac ++ exp)).length ≤ maxSize := by
    rw [List.length_append] at hsize
    omega
  have hhead := int_head hint (frac ++ exp)
  have hword : ∀ negative : Bool,
      (plainMagnitudeWord (int ++ (frac ++ exp)) >>= fun found =>
        match found with
        | none => some none
        | some magnitude => inRangeWord signed bits negative magnitude) =
        some ((plainMagnitude (int ++ (frac ++ exp))).bind (inRange signed bits negative)) := by
    intro negative
    rw [plainMagnitudeWord_eq hint hfrac hexp hrest]
    cases plainMagnitude (int ++ (frac ++ exp)) with
    | none => rfl
    | some m => exact inRangeWord_eq hbits' negative m
  unfold numberWord jsonInteger Value.numberText
  cases negative with
  | true =>
    simp only [if_true, List.cons_append, List.nil_append, List.isEmpty_cons, List.head?_cons,
      beq_self_eq_true, List.tail_cons, hhead.2, Bool.false_eq_true, if_false]
    exact hword true
  | false =>
    simp only [Bool.false_eq_true, if_false, List.nil_append, hhead.1, hhead.2]
    exact hword false

/-! ### Exactness -/

/-- Number tokens and quoted numerals are read exactly when they stand for an integer of the type,
and no step of the reader overflows. -/
theorem jsonInteger_exact {signed : Bool} {bits : ℕ} (hbits : 0 < bits) (hbits' : bits ≤ 64) :
    (∀ t, Number t → ∃ q, Denotes t q) ∧
      (∀ t q, Denotes t q → t.length ≤ maxSize →
        numberWord signed bits t = some (jsonInteger signed bits (Value.numberText t)) ∧
          ∀ n : ℤ, jsonInteger signed bits (Value.numberText t) = some n ↔
            q = n ∧ InType signed bits n) ∧
      ∀ text n, jsonInteger signed bits (Value.string text) = some n ↔
        QuotedInteger text n ∧ InType signed bits n :=
  ⟨fun _ h => exists_denotes h,
    fun _ _ h hsize => ⟨numberWord_eq hbits' h hsize,
      jsonInteger_number hbits hbits' h hsize⟩,
    jsonInteger_string hbits hbits'⟩

theorem jsonInteger_exact_fraction :
    Denotes (lit "1.5e1") 15 ∧ numberWord true 32 (lit "1.5e1") = some (some 15) ∧
      jsonInteger true 32 (Value.numberText (lit "1.5e1")) = some 15 := by
  have hdenotes : Denotes (lit "1.5e1") 15 := by
    have hone : Digits (lit "1") := by
      refine ⟨by decide, fun b hb => ?_⟩
      rw [List.mem_singleton.mp hb]
      rfl
    have hfive : Digits (lit "5") := by
      refine ⟨by decide, fun b hb => ?_⟩
      rw [List.mem_singleton.mp hb]
      rfl
    have htype : (lit "1") = [0x31] := by decide
    refine ⟨false, lit "1", lit ".5", lit "5", lit "e1", 1, ?_, .digits (lit "5") hfive, ?_,
      by decide, ?_⟩
    · rw [htype]
      exact .digits 0x31 [] (by decide) (by decide) fun b hb => absurd hb List.not_mem_nil
    · exact .positive 0x65 [] (lit "1") (by decide) (Or.inl rfl) hone
    · have hvalue : readDigits 10 (lit "1" ++ lit "5") = 15 := by decide
      have hlength : (lit "5").length = 1 := by decide
      rw [decimal, hvalue, hlength]
      norm_num
  obtain ⟨hword, hread⟩ := (@jsonInteger_exact true 32 (by decide) (by decide)).2.1 _ _ hdenotes
    (by decide)
  have hvalue := (hread 15).mpr ⟨by norm_num, by unfold InType; decide⟩
  exact ⟨hdenotes, hword.trans (congrArg some hvalue), hvalue⟩

end CheatEngine.CtFile
