import CheatEngineLinux.Core.ScriptText
import CheatEngineLinux.Core.ValueCodec

/-!
# Integers as text

`formatIntegerScalar` and `parseIntegerScalar` (`src/core/value_transform.hpp`).

* `IntegerText`: the texts that stand for an integer of any size.
* `canonicalText`: how an integer is displayed.

* **PROVED `parseIntegerScalar_eq_some_iff`**: a text is read if and only if it stands for an
  integer between the smallest signed and the largest unsigned 64-bit one.
* **PROVED `formatIntegerScalar_eq`**: the display of a word is the canonical text of its low bytes.
-/

namespace CheatEngine.ValueIo

open AutoAssembler (Text)
open Numerals

/-! ### The functions -/

/-- `std::to_string` of a signed number. -/
def intText : ℤ → Text
  | .ofNat n => Nat.toDigits 10 n
  | .negSucc n => '-' :: Nat.toDigits 10 (n + 1)

/-- Hexadecimal shows the masked unsigned value, decimal the signed or the unsigned one. -/
def formatIntegerScalar (bits : UInt64) (width : ℕ) (isSigned hex : Bool) : Text :=
  let width := if width < 1 then 1 else width
  let width := if width > 8 then 8 else width
  let u := bits &&& ValueCodec.maskFor width
  if hex then '0' :: 'x' :: Nat.toDigits 16 u.toNat
  else if isSigned then
    intText (match width with
      | 1 => u.toUInt8.toInt8.toInt
      | 2 => u.toUInt16.toInt16.toInt
      | 4 => u.toUInt32.toInt32.toInt
      | _ => u.toInt64.toInt)
  else Nat.toDigits 10 u.toNat

/-- `neg`, and the text after the sign. -/
def splitSign : Text → Bool × Text
  | '-' :: rest => (true, rest)
  | '+' :: rest => (false, rest)
  | t => (false, t)

/-- `base`, and the digits after the mark of a hexadecimal number. -/
def splitMark (hex : Bool) : Text → ℕ × Text
  | '0' :: 'x' :: rest => (16, rest)
  | '0' :: 'X' :: rest => (16, rest)
  | t => (if hex then 16 else 10, t)

/-- The loop over the digits: none that is too large for the base, and no overflow. -/
def readDigits (base : ℕ) : Text → UInt64 → Option UInt64
  | [], val => some val
  | c :: rest, val =>
    match digitValue c with
    | none => none
    | some d =>
      if d ≥ base then none
      else if val > (0xffffffffffffffff - UInt64.ofNat d) / UInt64.ofNat base then none
      else readDigits base rest (val * UInt64.ofNat base + UInt64.ofNat d)

/-- With `hex`, a bare token is hexadecimal. -/
def parseIntegerScalar (s : Text) (hex : Bool) : Option Int64 :=
  let signed := splitSign (Slices.trim (fun c => c == ' ' || c == '\t') s)
  let numeral := splitMark hex signed.2
  if numeral.2.isEmpty then none
  else
    match readDigits numeral.1 numeral.2 0 with
    | none => none
    | some val =>
      if signed.1 && decide (val > (0x8000000000000000 : UInt64)) then none
      else some (if signed.1 then 0 - val else val).toInt64

/-! ### What texts stand for -/

/-- A sign, and whether it makes the number negative. -/
def IsSign (sign : Text) (neg : Bool) : Prop :=
  sign = ['-'] ∧ neg = true ∨ (sign = [] ∨ sign = ['+']) ∧ neg = false

def IsMark (hex : Bool) (mark : Text) (base : ℕ) : Prop :=
  mark = [] ∧ base = (if hex then 16 else 10) ∨ (mark = ['0', 'x'] ∨ mark = ['0', 'X']) ∧ base = 16

/-- The text stands for the integer: a sign, a mark of the base, and digits of it. -/
inductive IntegerText (hex : Bool) : Text → ℤ → Prop
  | intro {neg : Bool} {base : ℕ} {sign mark digits : Text} (hsign : IsSign sign neg)
      (hmark : IsMark hex mark base) (hdigits : digits ≠ []) (h : IsDigits base digits) :
      IntegerText hex (sign ++ (mark ++ digits))
        (if neg then -(value base digits : ℤ) else value base digits)

/-- The number modulo `2 ^ (8 * width)`, as it is displayed. -/
def canonicalText (v : ℤ) (width : ℕ) (isSigned hex : Bool) : Text :=
  if hex then '0' :: 'x' :: Nat.toDigits 16 (v % 2 ^ (8 * width)).toNat
  else if isSigned then intText (v.bmod (2 ^ (8 * width)))
  else Nat.toDigits 10 (v % 2 ^ (8 * width)).toNat

/-! ### Reading -/

variable {hex : Bool} {base : ℕ}

theorem digitValue_sign {c : Char} {d : ℕ} (h : digitValue c = some d) : c ≠ '-' ∧ c ≠ '+' := by
  constructor <;> rintro rfl <;> cases h

theorem splitSign_append {neg : Bool} {sign rest : Text} (hsign : IsSign sign neg)
    (hrest : ∀ c, rest.head? = some c → c ≠ '-' ∧ c ≠ '+') :
    splitSign (sign ++ rest) = (neg, rest) := by
  rcases hsign with ⟨rfl, rfl⟩ | ⟨rfl | rfl, rfl⟩
  · rfl
  · rw [List.nil_append]
    unfold splitSign
    split
    · exact absurd rfl (hrest _ rfl).1
    · exact absurd rfl (hrest _ rfl).2
    · rfl
  · rfl

theorem splitSign_spec (t : Text) :
    ∃ sign, IsSign sign (splitSign t).1 ∧ t = sign ++ (splitSign t).2 := by
  unfold splitSign
  split
  · exact ⟨['-'], .inl ⟨rfl, rfl⟩, rfl⟩
  · exact ⟨['+'], .inr ⟨.inr rfl, rfl⟩, rfl⟩
  · exact ⟨[], .inr ⟨.inl rfl, rfl⟩, rfl⟩

theorem splitMark_append {mark digits : Text} (hmark : IsMark hex mark base)
    (h : IsDigits base digits) : splitMark hex (mark ++ digits) = (base, digits) := by
  rcases hmark with ⟨rfl, rfl⟩ | ⟨rfl | rfl, rfl⟩
  · rw [List.nil_append]
    unfold splitMark
    split
    · obtain ⟨d, hd, -⟩ := h 'x' (by simp)
      cases hd
    · obtain ⟨d, hd, -⟩ := h 'X' (by simp)
      cases hd
    · rfl
  · rfl
  · rfl

theorem splitMark_spec (hex : Bool) (t : Text) :
    ∃ mark, IsMark hex mark (splitMark hex t).1 ∧ t = mark ++ (splitMark hex t).2 := by
  unfold splitMark
  split
  · exact ⟨['0', 'x'], .inr ⟨.inl rfl, rfl⟩, rfl⟩
  · exact ⟨['0', 'X'], .inr ⟨.inr rfl, rfl⟩, rfl⟩
  · exact ⟨[], .inl ⟨rfl, rfl⟩, rfl⟩

theorem IsMark.base_cases {mark : Text} (h : IsMark hex mark base) : base = 10 ∨ base = 16 := by
  rcases h with ⟨-, rfl⟩ | ⟨-, rfl⟩
  · split
    · exact .inr rfl
    · exact .inl rfl
  · exact .inr rfl

theorem readDigits_eq_some_iff (hbase : base = 10 ∨ base = 16) {digits : Text} {val r : UInt64} :
    readDigits base digits val = some r ↔
      IsDigits base digits ∧ r.toNat = valueFrom base val.toNat digits := by
  induction digits generalizing val with
  | nil =>
    rw [readDigits, Option.some.injEq, ← UInt64.toNat_inj]
    exact ⟨fun h => ⟨fun _ hc => absurd hc List.not_mem_nil, h.symm⟩, fun h => h.2.symm⟩
  | cons c rest ih =>
    rw [readDigits, isDigits_cons]
    cases hd : digitValue c with
    | none =>
      dsimp only
      constructor
      · intro h
        cases h
      · rintro ⟨⟨⟨_, h, _⟩, _⟩, _⟩
        cases h
    | some d =>
      dsimp only
      rw [valueFrom, List.foldl_cons, hd, Option.getD_some, ← valueFrom]
      split
      · rename_i hlarge
        constructor
        · intro h
          cases h
        · rintro ⟨⟨⟨_, h, hlt⟩, _⟩, _⟩
          cases h
          omega
      · rename_i hsmall
        have hbaseNat : (UInt64.ofNat base).toNat = base :=
          UInt64.toNat_ofNat_of_lt' (by change base < 2 ^ 64; omega)
        have hdNat : (UInt64.ofNat d).toNat = d :=
          UInt64.toNat_ofNat_of_lt' (by change d < 2 ^ 64; omega)
        have hroom : ((0xffffffffffffffff - UInt64.ofNat d) / UInt64.ofNat base).toNat =
            (2 ^ 64 - 1 - d) / base := by
          rw [UInt64.toNat_div, hbaseNat, UInt64.toNat_sub_of_le _ _ (by
            rw [UInt64.le_iff_toNat_le, hdNat]; change d ≤ 2 ^ 64 - 1; omega), hdNat]
          rfl
        have hfits : val > (0xffffffffffffffff - UInt64.ofNat d) / UInt64.ofNat base ↔
            2 ^ 64 ≤ val.toNat * base + d := by
          rw [gt_iff_lt, UInt64.lt_iff_toNat_lt, hroom, Nat.div_lt_iff_lt_mul (by omega)]
          omega
        split
        · rename_i hover
          rw [hfits] at hover
          constructor
          · intro h
            cases h
          · rintro ⟨_, hr⟩
            have := @le_valueFrom base (by omega) (val.toNat * base + d) rest
            have := r.toNat_lt
            omega
        · rename_i hover
          rw [hfits] at hover
          have hnext : (val * UInt64.ofNat base + UInt64.ofNat d).toNat = val.toNat * base + d := by
            rw [UInt64.toNat_add, UInt64.toNat_mul, hbaseNat, hdNat]
            rw [Nat.mod_eq_of_lt (show val.toNat * base < 2 ^ 64 by omega), Nat.mod_eq_of_lt]
            omega
          rw [ih, hnext]
          exact ⟨fun h => ⟨⟨⟨d, rfl, by omega⟩, h.1⟩, h.2⟩, fun h => ⟨h.1.2, h.2⟩⟩

theorem mark_append_head {mark digits : Text} (hmark : IsMark hex mark base)
    (h : IsDigits base digits) {c : Char} (hc : (mark ++ digits).head? = some c) :
    c ≠ '-' ∧ c ≠ '+' := by
  rcases hmark with ⟨rfl, -⟩ | ⟨rfl | rfl, -⟩
  · obtain ⟨d, hd, -⟩ := h c (List.mem_of_mem_head? hc)
    exact digitValue_sign hd
  · cases hc
    decide
  · cases hc
    decide

theorem integerText_iff {t : Text} {v : ℤ} : IntegerText hex t v ↔
    (splitMark hex (splitSign t).2).2 ≠ [] ∧
      IsDigits (splitMark hex (splitSign t).2).1 (splitMark hex (splitSign t).2).2 ∧
      v = if (splitSign t).1
        then -(value (splitMark hex (splitSign t).2).1 (splitMark hex (splitSign t).2).2 : ℤ)
        else value (splitMark hex (splitSign t).2).1 (splitMark hex (splitSign t).2).2 := by
  constructor
  · rintro ⟨hsign, hmark, hdigits, hd⟩
    rw [splitSign_append hsign fun c => mark_append_head hmark hd]
    dsimp only
    rw [splitMark_append hmark hd]
    exact ⟨hdigits, hd, rfl⟩
  · rintro ⟨hdigits, hd, rfl⟩
    obtain ⟨sign, hsign, hrest⟩ := splitSign_spec t
    obtain ⟨mark, hmark, hmarked⟩ := splitMark_spec hex (splitSign t).2
    have htext := IntegerText.intro hsign hmark hdigits hd
    rwa [← hmarked, ← hrest] at htext

theorem IntegerText.unique {t : Text} {v v' : ℤ} (h : IntegerText hex t v)
    (h' : IntegerText hex t v') : v = v' :=
  (integerText_iff.mp h).2.2.trans (integerText_iff.mp h').2.2.symm

theorem signed_word {neg : Bool} {n : ℕ} {val : UInt64} (hval : val.toNat = n)
    (hrange : neg = true → n ≤ 2 ^ 63) : -2 ^ 63 ≤ (if neg then -(n : ℤ) else n) ∧
      (if neg then -(n : ℤ) else n) < 2 ^ 64 ∧
      ((if neg then 0 - val else val).toNat : ℤ) = (if neg then -(n : ℤ) else n) % 2 ^ 64 := by
  have hlt := val.toNat_lt
  cases neg with
  | false =>
    simp only [Bool.false_eq_true, if_false]
    omega
  | true =>
    have hle := hrange rfl
    simp only [if_true, UInt64.toNat_sub]
    refine ⟨by omega, by omega, ?_⟩
    rw [show (0 : UInt64).toNat = 0 from rfl]
    omega

/-- **A text is read** if and only if it stands for an integer between the smallest signed and the
largest unsigned word, and the word is that integer modulo `2 ^ 64`. -/
theorem parseIntegerScalar_eq_some_iff {t : Text} {p : Int64}
    (htrim : Slices.trim (fun c => c == ' ' || c == '\t') t = t) :
    parseIntegerScalar t hex = some p ↔ ∃ v : ℤ, IntegerText hex t v ∧ -2 ^ 63 ≤ v ∧ v < 2 ^ 64 ∧
      (p.toUInt64.toNat : ℤ) = v % 2 ^ 64 := by
  obtain ⟨sign, hsign, -⟩ := splitSign_spec t
  obtain ⟨mark, hmark, -⟩ := splitMark_spec hex (splitSign t).2
  unfold parseIntegerScalar
  simp only [htrim, integerText_iff]
  generalize (splitMark hex (splitSign t).2).2 = digits
  generalize (splitMark hex (splitSign t).2).1 = base at hmark ⊢
  generalize (splitSign t).1 = neg
  constructor
  · intro h
    split at h
    · cases h
    · rename_i hne
      split at h
      · cases h
      · rename_i val hread
        obtain ⟨hd, hval⟩ := (readDigits_eq_some_iff hmark.base_cases).mp hread
        split at h
        · cases h
        · rename_i hrange
          cases h
          refine ⟨_, ⟨by simpa using hne, hd, rfl⟩, signed_word hval fun hneg => ?_⟩
          rw [hneg] at hrange
          change val.toNat = value base digits at hval
          rw [← hval]
          simpa [UInt64.lt_iff_toNat_lt] using hrange
  · rintro ⟨v, ⟨hdigits, hd, rfl⟩, hlow, hhigh, hp⟩
    have hlt : value base digits < 2 ^ 64 := by
      cases neg <;> simp at hlow hhigh <;> omega
    have hnat : (UInt64.ofNat (value base digits)).toNat = value base digits :=
      UInt64.toNat_ofNat_of_lt' hlt
    have hrange : neg = true → value base digits ≤ 2 ^ 63 := by
      rintro rfl
      simp at hlow
      omega
    rw [if_neg (by simpa using hdigits),
      (readDigits_eq_some_iff hmark.base_cases).mpr ⟨hd, hnat⟩]
    dsimp only
    rw [if_neg]
    · have hword := (signed_word hnat hrange).2.2
      rw [← hp] at hword
      rw [UInt64.toNat_inj.mp (Int.ofNat.inj hword), Int64.toInt64_toUInt64]
    · rw [Bool.and_eq_true, decide_eq_true_eq]
      rintro ⟨hneg, hover⟩
      have := hrange hneg
      rw [gt_iff_lt, UInt64.lt_iff_toNat_lt, hnat] at hover
      exact absurd hover (by change ¬ 2 ^ 63 < _; omega)

/-! ### Printing -/

theorem toInt_toInt64 (x : UInt64) : x.toInt64.toInt = (x.toNat : ℤ).bmod (2 ^ 64) :=
  BitVec.toInt_eq_toNat_bmod _

/-- **The display of a word** is the canonical text of its low bytes. -/
theorem formatIntegerScalar_eq {width : ℕ} (hwidth : ValueCodec.IsWidth width) {bits : UInt64}
    {v : ℤ} (hv : ((bits &&& ValueCodec.maskFor width).toNat : ℤ) = v % 2 ^ (8 * width))
    (isSigned hex : Bool) :
    formatIntegerScalar bits width isSigned hex = canonicalText v width isSigned hex := by
  have hclamp : (if (if width < 1 then 1 else width) > 8 then 8
      else if width < 1 then 1 else width) = width := by
    rcases hwidth with rfl | rfl | rfl | rfl <;> rfl
  unfold formatIntegerScalar canonicalText
  simp only [hclamp]
  rw [← hv, Int.toNat_natCast]
  generalize bits &&& ValueCodec.maskFor width = u at hv ⊢
  cases hex with
  | true => rfl
  | false =>
    cases isSigned with
    | false => rfl
    | true =>
      simp only [Bool.false_eq_true, if_false, if_true]
      congr 1
      have hmod : v % ((2 ^ (8 * width) : ℕ) : ℤ) = u.toNat := by
        rw [hv, Int.natCast_pow]
        rfl
      rw [← Int.emod_bmod, hmod]
      rcases hwidth with rfl | rfl | rfl | rfl <;> simp only [Nat.reduceMul]
      · rw [show u.toUInt8.toInt8.toInt = (u.toUInt8.toNat : ℤ).bmod (2 ^ 8) from
          BitVec.toInt_eq_toNat_bmod _, UInt64.toNat_toUInt8, Int.natCast_mod]
        exact Int.emod_bmod _ _
      · rw [show u.toUInt16.toInt16.toInt = (u.toUInt16.toNat : ℤ).bmod (2 ^ 16) from
          BitVec.toInt_eq_toNat_bmod _, UInt64.toNat_toUInt16, Int.natCast_mod]
        exact Int.emod_bmod _ _
      · rw [show u.toUInt32.toInt32.toInt = (u.toUInt32.toNat : ℤ).bmod (2 ^ 32) from
          BitVec.toInt_eq_toNat_bmod _, UInt64.toNat_toUInt32, Int.natCast_mod]
        exact Int.emod_bmod _ _
      · exact toInt_toInt64 u

/-- The integer that is displayed. -/
def shownValue (v : ℤ) (width : ℕ) (isSigned hex : Bool) : ℤ :=
  if hex = false ∧ isSigned = true then v.bmod (2 ^ (8 * width)) else v % 2 ^ (8 * width)

theorem two_pow_cast (n : ℕ) : ((2 ^ n : ℕ) : ℤ) = 2 ^ n := by
  rw [Int.natCast_pow]
  rfl

/-- What is displayed is the integer up to the modulus. -/
theorem shownValue_emod (v : ℤ) (width : ℕ) (isSigned hex : Bool) :
    shownValue v width isSigned hex % 2 ^ (8 * width) = v % 2 ^ (8 * width) := by
  unfold shownValue
  split
  · rw [← two_pow_cast]
    exact Int.bmod_emod
  · exact Int.emod_emod_of_dvd v (Int.dvd_refl _)

/-- What is displayed can be written back. -/
theorem shownValue_bounds {width : ℕ} (hwidth : ValueCodec.IsWidth width) (v : ℤ)
    (isSigned hex : Bool) : -2 ^ (8 * width - 1) ≤ shownValue v width isSigned hex ∧
      shownValue v width isSigned hex < 2 ^ (8 * width) := by
  have hlow := @Int.le_bmod v (2 ^ (8 * width)) (Nat.two_pow_pos _)
  have hhigh := @Int.bmod_lt v (2 ^ (8 * width)) (Nat.two_pow_pos _)
  unfold shownValue
  rcases hwidth with rfl | rfl | rfl | rfl <;> split <;>
    simp only [Nat.reduceMul, Nat.reduceSub, Nat.reducePow, Int.reducePow] at * <;>
    omega

theorem intText_text {hex : Bool} (hhex : hex = false) (v : ℤ) : IntegerText hex (intText v) v := by
  subst hhex
  have hone : IsMark false [] 10 := .inl ⟨rfl, rfl⟩
  cases v with
  | ofNat n =>
    have h := @IntegerText.intro _ false _ [] _ _ (.inr ⟨.inl rfl, rfl⟩) hone
      Nat.toDigits_ne_nil (isDigits_toDigits (by decide) (by decide) n)
    rwa [value_toDigits (by decide) (by decide)] at h
  | negSucc n =>
    have h := @IntegerText.intro _ true _ ['-'] _ _ (.inl ⟨rfl, rfl⟩) hone
      Nat.toDigits_ne_nil (isDigits_toDigits (by decide) (by decide) (n + 1))
    rwa [value_toDigits (by decide) (by decide)] at h

theorem canonicalText_text {hex shownHex : Bool} (hshown : shownHex = false → hex = false) (v : ℤ)
    (width : ℕ) (isSigned : Bool) : IntegerText hex (canonicalText v width isSigned shownHex)
      (shownValue v width isSigned shownHex) := by
  have hpos : 0 ≤ v % 2 ^ (8 * width) := Int.emod_nonneg _ (by
    rw [← two_pow_cast]
    exact Int.ofNat_ne_zero.mpr (Nat.two_pow_pos _).ne')
  unfold canonicalText shownValue
  cases shownHex with
  | true =>
    rw [if_pos rfl, if_neg (by simp)]
    have h := @IntegerText.intro hex false _ [] ['0', 'x'] _
      (.inr ⟨.inl rfl, rfl⟩) (.inr ⟨.inl rfl, rfl⟩) Nat.toDigits_ne_nil
      (isDigits_toDigits (by decide) (by decide) (v % 2 ^ (8 * width)).toNat)
    rw [value_toDigits (by decide) (by decide)] at h
    simpa [Int.toNat_of_nonneg hpos] using h
  | false =>
    have hhex := hshown rfl
    cases isSigned with
    | true => exact intText_text hhex _
    | false =>
      have h := intText_text hhex (v % 2 ^ (8 * width))
      obtain ⟨n, hn⟩ := Int.eq_ofNat_of_zero_le hpos
      rw [hn] at h ⊢
      exact h

/-- No blanks are displayed. -/
theorem canonicalText_plain {p : Char → Bool} (hsign : p '-' = false)
    (hdigit : ∀ c d, digitValue c = some d → p c = false) (hx : p 'x' = false) (v : ℤ) (width : ℕ)
    (isSigned hex : Bool) : ∀ c ∈ canonicalText v width isSigned hex, p c = false := by
  have hdigits : ∀ base n, 1 < base → base ≤ 16 → ∀ c ∈ Nat.toDigits base n, p c = false := by
    intro base n hone hle c hc
    obtain ⟨d, hd, -⟩ := isDigits_toDigits hone hle n c hc
    exact hdigit c d hd
  have hint : ∀ v, ∀ c ∈ intText v, p c = false := by
    intro v c hc
    cases v with
    | ofNat n => exact hdigits 10 n (by decide) (by decide) c hc
    | negSucc n =>
      rcases List.mem_cons.mp hc with rfl | hc
      · exact hsign
      · exact hdigits 10 _ (by decide) (by decide) c hc
  intro c hc
  unfold canonicalText at hc
  split at hc
  · rcases List.mem_cons.mp hc with rfl | hc
    · exact hdigit _ 0 rfl
    · rcases List.mem_cons.mp hc with rfl | hc
      · exact hx
      · exact hdigits 16 _ (by decide) (by decide) c hc
  · split at hc
    · exact hint _ c hc
    · exact hdigits 10 _ (by decide) (by decide) c hc

end CheatEngine.ValueIo
