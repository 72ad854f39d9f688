import CheatEngineLinux.Core.TableNumbers
import CheatEngineLinux.Scanner.ScanCompare

/-!
# The numbers of a search

`parseNumber` (`scanner/scan_number.cpp`) reduces a literal to a sign, an integer magnitude and two
flags, by moving the decimal point over the digits.  Nothing goes through a double.

* `Literal`: the number that a text stands for.
* `AllIntegerValue.Stands`: sign, magnitude and flags describe a rational number.

* **PROVED `compare_stands`**: such a value compares as the rational number does.
* **PROVED `fromPoint_stands`**: digits and point give such a value, whatever the exponent.
* **PROVED `literal_comparison_exact`**: every accepted literal is compared exactly.

`std::from_chars` of a double is a parameter: the value it reads, with its class.
-/

namespace CheatEngine

open JsonGrammar (Bytes isDigit)
open CtFile (readDigits charDigit fromCharsAll isExponentMark AllDigits ExpValue decimal uint64Max)

/-! ### The reader -/

/-- What `std::isfinite` and `std::isnan` say of a double. -/
inductive FloatClass
  | finite
  | infinite
  | nan
  deriving Repr, DecidableEq

/-- `std::from_chars` of a double over all of a text. -/
abbrev FromChars := Bytes → Option (FloatClass × Float)

structure Number where
  integer : AllIntegerValue := {}
  floating : Float := 0
  decimals : ℤ := 0

/-- A byte of `" \t\r\n"`. -/
def isBlank (b : UInt8) : Bool := b == 0x20 || b == 0x09 || b == 0x0d || b == 0x0a

def trimBlank (s : Bytes) : Bytes := Slices.trim isBlank s

def isSeparator (b : UInt8) : Bool := b == 0x2e || b == 0x2c

def splitSign : Bytes → Bool × Bytes
  | [] => (false, [])
  | c :: s => if c == 0x2b || c == 0x2d then (c == 0x2d, s) else (false, c :: s)

/-- Digits and at most one separator: the digits, how many are fractional, and what is left. -/
def mantissaLoop : Bytes → Bytes → Bool → ℕ → Bytes × ℕ × Bytes
  | [], digits, _, fractional => (digits, fractional, [])
  | c :: s, digits, separator, fractional =>
    if isDigit c then
      mantissaLoop s (digits ++ [c]) separator (if separator then fractional + 1 else fractional)
    else if isSeparator c && !separator then mantissaLoop s digits true fractional
    else (digits, fractional, c :: s)

/-- The digits of the exponent, which stops growing at 8192. -/
def exponentLoop : ℕ → Bytes → ℕ × Bytes
  | exponent, [] => (exponent, [])
  | exponent, c :: s =>
    if isDigit c then exponentLoop (min 8192 (exponent * 10 + (c.toNat - 0x30))) s
    else (exponent, c :: s)

/-- The exponent after the mantissa, up to the end of the text. -/
def parseExponent : Bytes → Option ℤ
  | [] => some 0
  | c :: s =>
    if isExponentMark c then
      let (negative, s) := splitSign s
      let (exponent, left) := exponentLoop 0 s
      if left.length == s.length then none
      else if !left.isEmpty then none
      else some (if negative then -(exponent : ℤ) else exponent)
    else none

/-- The digits from a position on are added to the magnitude: whether it passes 64 bits, and the
magnitude up to there. -/
def magnitudeLoop : ℕ → Bytes → UInt64 → Bool × UInt64
  | 0, _, magnitude => (false, magnitude)
  | n + 1, digits, magnitude =>
    let digit : UInt64 := UInt64.ofNat ((digits.headD 0x30).toNat - 0x30)
    if magnitude > (0xFFFFFFFFFFFFFFFF - digit) / 10 then (true, magnitude)
    else magnitudeLoop n digits.tail (magnitude * 10 + digit)

/-- The value of digits whose decimal point lies at a place, which may be outside them. -/
def fromPoint (negative : Bool) (digits : Bytes) (point : ℤ) : AllIntegerValue :=
  let fractional := (digits.drop point.toNat).any (· != 0x30)
  if point > 20 then { negative, fractional, outsideMagnitude := true }
  else
    let (outside, magnitude) := magnitudeLoop point.toNat digits 0
    { magnitude, negative, fractional, outsideMagnitude := outside }

/-- A number in hexadecimal, as the 64 bits of a signed integer. -/
def parseHex (negative : Bool) (body : Bytes) : Option Number :=
  match fromCharsAll 16 body with
  | none => none
  | some n =>
    let bits := UInt64.ofNat n
    if negative && decide (bits > 0x8000000000000000) then none
    else
      let bits := if negative then 0 - bits else bits
      let value : ℤ := bits.toInt64.toInt
      some { integer := { negative := decide (value < 0),
                          magnitude := if value < 0 then 0 - bits else bits },
             floating := Float.ofInt value }

/-- A finite decimal number, whose double was read already. -/
def parseDecimal (negative : Bool) (body : Bytes) (floating : Float) : Option Number :=
  let (digits, fractionalDigits, left) := mantissaLoop body [] false 0
  if digits.isEmpty then none
  else
    match parseExponent left with
    | none => none
    | some exponent =>
      let decimals := max 0 ((fractionalDigits : ℤ) - exponent)
      let significant := (digits.takeWhile (· == 0x30)).length
      if significant == digits.length then some { floating, decimals }
      else
        let point : ℤ := (digits.length : ℤ) - fractionalDigits + exponent - significant
        some { integer := fromPoint negative (digits.drop significant) point, floating, decimals }

def lowerLetter (c : UInt8) : UInt8 := if 0x41 ≤ c && c ≤ 0x5a then c + 0x20 else c

def nanText : Bytes := [0x6e, 0x61, 0x6e]

def infText : Bytes := [0x69, 0x6e, 0x66]

def infinityText : Bytes := infText ++ [0x69, 0x6e, 0x69, 0x74, 0x79]

/-- `nan`, `inf` or `infinity`, but nothing else that is not finite. -/
def parseSpecial (negative : Bool) (body : Bytes) (cls : FloatClass) (floating : Float) :
    Option Number :=
  let special := body.map lowerLetter
  if special != nanText && special != infText && special != infinityText then none
  else
    let unordered := cls == .nan
    some { integer := { negative, unordered, outsideMagnitude := !unordered }, floating }

def startsHex (body : Bytes) : Bool :=
  decide (body.length ≥ 2) && body.head? == some 0x30 &&
    (body.getD 1 0 == 0x78 || body.getD 1 0 == 0x58)

/-- What `std::from_chars` is given: points for commas, and no plus sign. -/
def doubleToken (input : Bytes) : Bytes :=
  let token := input.map fun c => if c == 0x2c then 0x2e else c
  if token.head? == some 0x2b then token.tail else token

/-- A number between the blanks. -/
def parseToken (fromChars : FromChars) (input : Bytes) (hex : Bool) : Option Number :=
  let (negative, body) := splitSign input
  if body.isEmpty then none
  else if hex || startsHex body then
    parseHex negative (if startsHex body then body.drop 2 else body)
  else
    match fromChars (doubleToken input) with
    | none => none
    | some (.finite, floating) => parseDecimal negative body floating
    | some (cls, floating) => parseSpecial negative body cls floating

def parseNumber (fromChars : FromChars) (input : Bytes) (hex : Bool) : Option Number :=
  if input.length > 4096 then none
  else
    let input := trimBlank input
    if input.isEmpty then none else parseToken fromChars input hex

def integerHint (value : AllIntegerValue) : ℤ :=
  if value.unordered || value.outsideMagnitude || value.fractional
      || decide (value.magnitude > if value.negative then 0x8000000000000000 else 0x7FFFFFFFFFFFFFFF)
  then 0
  else (if value.negative then 0 - value.magnitude else value.magnitude).toInt64.toInt

def needsLiteral (config : ScanConfig) : Bool :=
  if config.percentageScan && supportsPercentageCompare config.compareType then false
  else
    match config.compareType with
    | .exact | .greater | .less | .between | .increasedBy | .decreasedBy => true
    | _ => false

/-- The config with the numbers of the search, `none` where one is no number. -/
def ScanConfig.parseAllValues (fromChars : FromChars) (config : ScanConfig) (first second : Bytes)
    (hex : Bool) : Option ScanConfig :=
  if !needsLiteral config then
    some { config with allIntegerValue := none, allIntegerValue2 := none }
  else
    match parseNumber fromChars first hex with
    | none => none
    | some lower =>
      let config := { config with
        allIntegerValue := some lower.integer, intValue := integerHint lower.integer,
        floatValue := lower.floating, floatDecimals := lower.decimals }
      if config.compareType = .between then
        match parseNumber fromChars second hex with
        | none => none
        | some upper => some { config with
          allIntegerValue2 := some upper.integer, intValue2 := integerHint upper.integer,
          floatValue2 := upper.floating }
      else some { config with allIntegerValue2 := none }

/-! ### What a literal stands for -/

/-- A number, an infinity or no number. -/
inductive LiteralValue
  | rational (q : ℚ)
  | infinite (negative : Bool)
  | nan

namespace LiteralValue

def order (v : LiteralValue) (c : ℤ) : ℤ :=
  match v with
  | rational q => (SignType.sign ((c : ℚ) - q) : ℤ)
  | infinite negative => if negative then 1 else -1
  | nan => 2

def Below (v : LiteralValue) (c : ℤ) : Prop :=
  match v with
  | rational q => q < c
  | infinite negative => negative = true
  | nan => False

def Above (v : LiteralValue) (c : ℤ) : Prop :=
  match v with
  | rational q => (c : ℚ) < q
  | infinite negative => negative = false
  | nan => False

def Equals (v : LiteralValue) (c : ℤ) : Prop :=
  match v with
  | rational q => q = c
  | _ => False

/-- The comparison of an integer with one or two numbers, as it is meant. -/
def Matches (compare : ScanCompare) (v w : LiteralValue) (c : ℤ) : Prop :=
  match compare with
  | .exact => v.Equals c
  | .greater => v.Below c
  | .less => v.Above c
  | .between => ((v.Below c ∨ v.Equals c) ∧ (w.Above c ∨ w.Equals c)) ∨
      ((w.Below c ∨ w.Equals c) ∧ (v.Above c ∨ v.Equals c))
  | _ => False

end LiteralValue

/-- The fraction of a decimal number, with either separator. -/
inductive FractionText : Bytes → Bytes → Prop
  | absent : FractionText [] []
  | digits (mark : UInt8) (ds : Bytes) : isSeparator mark = true → AllDigits ds →
      FractionText (mark :: ds) ds

/-- A decimal number without a sign. -/
inductive DecimalText : Bytes → ℚ → Prop
  | mk (int frac fraction exp : Bytes) (exponent : ℤ) : AllDigits int →
      FractionText frac fraction → int ++ fraction ≠ [] → ExpValue exp exponent →
      DecimalText (int ++ (frac ++ exp)) (decimal (int ++ fraction) (exponent - fraction.length))

def signed64 (n : ℤ) : ℤ := n.bmod (2 ^ 64)

/-- A literal between its sign and its end, by its sign. -/
inductive BodyText : Bool → Bool → Bytes → LiteralValue → Prop
  | decimal (negative : Bool) (body : Bytes) (q : ℚ) : DecimalText body q →
      BodyText false negative body (.rational (if negative then -q else q))
  | inf (negative : Bool) (body : Bytes) :
      body.map lowerLetter = infText ∨ body.map lowerLetter = infinityText →
      BodyText false negative body (.infinite negative)
  | nan (negative : Bool) (body : Bytes) : body.map lowerLetter = nanText →
      BodyText false negative body .nan
  | marked (hex negative : Bool) (x : UInt8) (ds : Bytes) : x = 0x78 ∨ x = 0x58 → ds ≠ [] →
      (∀ b ∈ ds, charDigit b < 16) →
      BodyText hex negative (0x30 :: x :: ds)
        (.rational (signed64 (if negative then -(readDigits 16 ds : ℤ) else readDigits 16 ds)))
  | plain (negative : Bool) (ds : Bytes) : ds ≠ [] → (∀ b ∈ ds, charDigit b < 16) →
      BodyText true negative ds
        (.rational (signed64 (if negative then -(readDigits 16 ds : ℤ) else readDigits 16 ds)))

/-- Blanks, a sign or none, the number, blanks.  Hexadecimal numbers are 64 bits read as a signed
integer. -/
def Literal (hex : Bool) (text : Bytes) (v : LiteralValue) : Prop :=
  ∃ before sign body after, (∀ b ∈ before, isBlank b = true) ∧ (∀ b ∈ after, isBlank b = true) ∧
    (sign = [] ∨ sign = [0x2b] ∨ sign = [0x2d]) ∧ BodyText hex (sign == [0x2d]) body v ∧
    text = before ++ (sign ++ (body ++ after))

/-- The texts that `std::from_chars` reads as a double of a class. -/
inductive DoubleText : Bytes → FloatClass → Prop
  | finite (sign body : Bytes) (q : ℚ) : sign = [] ∨ sign = [0x2d] → DecimalText body q →
      DoubleText (sign ++ body) .finite
  | infinite (sign body : Bytes) : sign = [] ∨ sign = [0x2d] →
      body.map lowerLetter = infText ∨ body.map lowerLetter = infinityText →
      DoubleText (sign ++ body) .infinite
  | nan (sign body tag : Bytes) : sign = [] ∨ sign = [0x2d] → body.map lowerLetter = nanText →
      tag = [] ∨ tag.head? = some 0x28 → DoubleText (sign ++ (body ++ tag)) .nan

/-- `std::from_chars` reads only texts of its grammar, each with the class of its form. -/
def StandardGrammar (fromChars : FromChars) : Prop :=
  ∀ text cls floating, fromChars text = some (cls, floating) → DoubleText text cls

/-! ### Sign, magnitude and flags -/

/-- The value describes a rational number: its sign, its integer part, whether there is more. -/
structure AllIntegerValue.Stands (value : AllIntegerValue) (q : ℚ) : Prop where
  ordered : value.unordered = false
  negative : value.negative = decide (q < 0)
  outside : value.outsideMagnitude = true → 2 ^ 64 ≤ |q|
  inside : value.outsideMagnitude = false →
    (value.magnitude.toNat : ℚ) ≤ |q| ∧ |q| < value.magnitude.toNat + 1 ∧
      (value.fractional = true ↔ (value.magnitude.toNat : ℚ) ≠ |q|)

namespace LiteralValue

variable {q : ℚ} {c : ℤ}

theorem order_of_lt (h : (c : ℚ) < q) : (rational q).order c = -1 := by
  rw [order, sign_neg (sub_neg.mpr h)]
  rfl

theorem order_of_gt (h : q < c) : (rational q).order c = 1 := by
  rw [order, sign_pos (sub_pos.mpr h)]
  rfl

theorem order_of_eq (h : q = c) : (rational q).order c = 0 := by
  rw [order, h, sub_self, sign_zero]
  rfl

end LiteralValue

theorem order_of_parts {n m : ℕ} {fractional : Bool} {a : ℚ} (hlow : (m : ℚ) ≤ a)
    (hhigh : a < m + 1) (hfrac : fractional = true ↔ (m : ℚ) ≠ a) :
    ((if n < m then -1 else if n > m then 1 else if fractional then -1 else 0 : ℤ) = -1 ∧ (n : ℚ) < a) ∨
    ((if n < m then -1 else if n > m then 1 else if fractional then -1 else 0 : ℤ) = 1 ∧ a < n) ∨
    ((if n < m then -1 else if n > m then 1 else if fractional then -1 else 0 : ℤ) = 0 ∧ a = n) := by
  rcases Nat.lt_trichotomy n m with h | h | h
  · left
    rw [if_pos h]
    have : (n : ℚ) < m := by exact_mod_cast h
    exact ⟨rfl, by linarith⟩
  · subst h
    rw [if_neg (lt_irrefl n), if_neg (lt_irrefl n)]
    cases fractional with
    | true =>
      left
      exact ⟨rfl, lt_of_le_of_ne hlow (hfrac.mp rfl)⟩
    | false =>
      right; right
      refine ⟨rfl, ?_⟩
      by_contra hne
      exact absurd (hfrac.mpr fun h => hne h.symm) (by decide)
  · right; left
    rw [if_neg (by omega), if_pos h]
    have : (m : ℚ) + 1 ≤ n := by exact_mod_cast h
    exact ⟨rfl, by linarith⟩

theorem natAbs_cast_of_nonneg {c : ℤ} (h : 0 ≤ c) : (c.natAbs : ℚ) = c := by
  rw [Nat.cast_natAbs, abs_of_nonneg h]

theorem natAbs_cast_of_neg {c : ℤ} (h : c < 0) : (c.natAbs : ℚ) = -c := by
  rw [Nat.cast_natAbs, abs_of_neg h, Int.cast_neg]

theorem compare_stands {value : AllIntegerValue} {q : ℚ} (h : value.Stands q) {c : ℤ}
    (hlow : -2 ^ 63 ≤ c) (hhigh : c < 2 ^ 63) :
    value.compare c = (LiteralValue.rational q).order c := by
  have hlow' : (-2 ^ 63 : ℚ) ≤ c := by exact_mod_cast hlow
  have hhigh' : (c : ℚ) < 2 ^ 63 := by exact_mod_cast hhigh
  rw [AllIntegerValue.compare, h.ordered, if_neg Bool.false_ne_true, h.negative]
  by_cases hout : value.outsideMagnitude = true
  · -- beyond 64 bits every integer is on the side of zero
    have hbig := h.outside hout
    rw [if_pos hout]
    by_cases hq : q < 0
    · rw [abs_of_neg hq] at hbig
      rw [decide_eq_true hq, if_pos rfl, LiteralValue.order_of_gt (by linarith)]
    · rw [abs_of_nonneg (not_lt.mp hq)] at hbig
      rw [decide_eq_false hq, if_neg Bool.false_ne_true, LiteralValue.order_of_lt (by linarith)]
  · obtain ⟨hle, hlt, hfrac⟩ := h.inside (by simpa using hout)
    have hparts := order_of_parts (n := c.natAbs) hle hlt hfrac
    rw [if_neg hout]
    by_cases hq : q < 0
    · rw [abs_of_neg hq] at hparts
      by_cases hc : c < 0
      · rw [natAbs_cast_of_neg hc] at hparts
        rw [decide_eq_true hq, decide_eq_true hc, if_neg (by decide)]
        simp only [if_true]
        rcases hparts with ⟨heq, hc'⟩ | ⟨heq, hc'⟩ | ⟨heq, hc'⟩
        · rw [heq, LiteralValue.order_of_gt (by linarith), neg_neg]
        · rw [heq, LiteralValue.order_of_lt (by linarith)]
        · rw [heq, LiteralValue.order_of_eq (by linarith), neg_zero]
      · have hc' : (0 : ℚ) ≤ c := by exact_mod_cast not_lt.mp hc
        rw [decide_eq_true hq, decide_eq_false hc, if_pos (by decide), if_neg hc,
          LiteralValue.order_of_gt (by linarith)]
    · have hq' := not_lt.mp hq
      rw [abs_of_nonneg hq'] at hparts
      by_cases hc : c < 0
      · have hc' : (c : ℚ) < 0 := by exact_mod_cast hc
        rw [decide_eq_false hq, decide_eq_true hc, if_pos (by decide), if_pos hc,
          LiteralValue.order_of_lt (by linarith)]
      · rw [natAbs_cast_of_nonneg (not_lt.mp hc)] at hparts
        rw [decide_eq_false hq, decide_eq_false hc, if_neg (by decide)]
        simp only [Bool.false_eq_true, if_false]
        rcases hparts with ⟨heq, hc'⟩ | ⟨heq, hc'⟩ | ⟨heq, hc'⟩
        · rw [heq, LiteralValue.order_of_lt hc']
        · rw [heq, LiteralValue.order_of_gt hc']
        · rw [heq, LiteralValue.order_of_eq hc']

/-- The fields describe a literal of any kind. -/
def LiteralValue.Describes (v : LiteralValue) (value : AllIntegerValue) : Prop :=
  match v with
  | rational q => value.Stands q
  | infinite negative => value.unordered = false ∧ value.outsideMagnitude = true ∧
      value.negative = negative
  | nan => value.unordered = true

theorem compare_describes {v : LiteralValue} {value : AllIntegerValue} (h : v.Describes value)
    {c : ℤ} (hlow : -2 ^ 63 ≤ c) (hhigh : c < 2 ^ 63) : value.compare c = v.order c := by
  cases v with
  | rational q => exact compare_stands h hlow hhigh
  | infinite negative =>
    obtain ⟨hun, hout, hneg⟩ := h
    simp [AllIntegerValue.compare, hun, hout, hneg, LiteralValue.order]
  | nan =>
    have hun : value.unordered = true := h
    simp [AllIntegerValue.compare, hun, LiteralValue.order]

/-! ### The magnitude -/

def readOn (m : ℕ) (digits : Bytes) : ℕ := digits.foldl (fun n b => n * 10 + charDigit b) m

theorem le_readOn (m : ℕ) (digits : Bytes) : m ≤ readOn m digits :=
  CtFile.le_foldl_digits digits m

theorem headD_isDigit {digits : Bytes} (h : AllDigits digits) :
    isDigit (digits.headD 0x30) = true := by
  cases digits with
  | nil => rfl
  | cons d ds => exact h d List.mem_cons_self

theorem AllDigits.tail {digits : Bytes} (h : AllDigits digits) : AllDigits digits.tail :=
  fun b hb => h b (List.mem_of_mem_tail hb)

theorem magnitudeLoop_spec (n : ℕ) {digits : Bytes} (h : AllDigits digits) (m : UInt64) :
    if readOn m.toNat (digits.takeD n 0x30) ≤ uint64Max then
      magnitudeLoop n digits m = (false, UInt64.ofNat (readOn m.toNat (digits.takeD n 0x30)))
    else (magnitudeLoop n digits m).1 = true := by
  induction n generalizing digits m with
  | zero =>
    have hm := m.toNat_lt
    rw [List.takeD_zero, if_pos (by rw [readOn, List.foldl_nil, uint64Max]; omega), readOn,
      List.foldl_nil, magnitudeLoop, UInt64.ofNat_toNat]
  | succ n ih =>
    obtain ⟨hdigit, hlt⟩ := CtFile.charDigit_of_isDigit (headD_isDigit h)
    have hread : readOn m.toNat (digits.takeD (n + 1) 0x30) =
        readOn (m.toNat * 10 + charDigit (digits.headD 0x30)) (digits.tail.takeD n 0x30) := rfl
    obtain ⟨d, hd⟩ : ∃ d, d = UInt64.ofNat ((digits.headD 0x30).toNat - 0x30) := ⟨_, rfl⟩
    have hdNat : d.toNat = charDigit (digits.headD 0x30) := by
      rw [hd, ← hdigit, UInt64.toNat_ofNat_of_lt' (by rw [UInt64.size]; omega)]
    have hbound : (((0xFFFFFFFFFFFFFFFF : UInt64) - d) / 10).toNat =
        (uint64Max - d.toNat) / 10 := by
      rw [UInt64.toNat_div, UInt64.toNat_sub_of_le _ _ (by
        rw [UInt64.le_iff_toNat_le]
        show d.toNat ≤ 2 ^ 64 - 1
        omega)]
      rfl
    rw [magnitudeLoop, hread, ← hdNat, ← hd]
    by_cases hstop : m > (0xFFFFFFFFFFFFFFFF - d) / 10
    · have hover : uint64Max < m.toNat * 10 + d.toNat := by
        have := UInt64.lt_iff_toNat_lt.mp hstop
        rw [hbound] at this
        unfold uint64Max at this ⊢
        omega
      have hle := le_readOn (m.toNat * 10 + d.toNat) (digits.tail.takeD n 0x30)
      rw [if_neg (by omega), if_pos hstop]
    · have hfits : m.toNat * 10 + d.toNat ≤ uint64Max := by
        have : ¬ ((0xFFFFFFFFFFFFFFFF - d) / 10).toNat < m.toNat :=
          fun hlt => hstop (UInt64.lt_iff_toNat_lt.mpr hlt)
        rw [hbound] at this
        unfold uint64Max at this ⊢
        omega
      have hnext : (m * 10 + d).toNat = m.toNat * 10 + d.toNat := by
        unfold uint64Max at hfits
        have hten : (10 : UInt64).toNat = 10 := rfl
        rw [UInt64.toNat_add, UInt64.toNat_mul, hten]
        omega
      have hstep := ih (AllDigits.tail h) (m * 10 + d)
      rw [hnext] at hstep
      rw [if_neg hstop]
      exact hstep

/-! ### The point -/

section point

variable {digits : Bytes}

theorem any_nonzero_iff (h : AllDigits digits) :
    digits.any (· != 0x30) = true ↔ readDigits 10 digits ≠ 0 := by
  rw [ne_eq, CtFile.readDigits_eq_zero h, List.any_eq_true]
  simp

theorem readDigits_point (h : AllDigits digits) (p : ℕ) :
    ∃ f : ℚ, decimal digits ((p : ℤ) - digits.length) = readDigits 10 (digits.takeD p 0x30) + f ∧
      0 ≤ f ∧ f < 1 ∧ ((digits.drop p).any (· != 0x30) = true ↔ f ≠ 0) := by
  rcases Nat.lt_or_ge p digits.length with hp | hp
  · -- the point lies among the digits
    have hdrop : AllDigits (digits.drop p) := fun b hb => h b (List.mem_of_mem_drop hb)
    have hlength : (digits.drop p).length = digits.length - p := List.length_drop
    have hvalue : readDigits 10 digits = readDigits 10 (digits.take p) * 10 ^ (digits.length - p) +
        readDigits 10 (digits.drop p) := by
      rw [← hlength, ← CtFile.readDigits_append, List.take_append_drop]
    have hlt := hdrop.lt
    rw [hlength] at hlt
    have hpow : (0 : ℚ) < 10 ^ (digits.length - p) := by positivity
    have hexp : ((p : ℤ) - digits.length) = -((digits.length - p : ℕ) : ℤ) := by omega
    refine ⟨readDigits 10 (digits.drop p) / 10 ^ (digits.length - p), ?_, by positivity, ?_, ?_⟩
    · rw [decimal, hexp, zpow_neg, zpow_natCast, List.takeD_eq_take _ hp.le, hvalue]
      push_cast
      field_simp
    · rw [div_lt_one hpow]
      exact_mod_cast hlt
    · rw [any_nonzero_iff hdrop, ne_eq, ne_eq, div_eq_zero_iff]
      constructor
      · rintro hne (hzero | hzero)
        · exact hne (by exact_mod_cast hzero)
        · exact hpow.ne' hzero
      · intro hne hzero
        exact hne (Or.inl (by exact_mod_cast hzero))
  · -- zeros are appended
    have hpad : digits.takeD p 0x30 = digits ++ List.replicate (p - digits.length) 0x30 := by
      obtain ⟨k, rfl⟩ := Nat.exists_eq_add_of_le hp
      rw [Nat.add_sub_cancel_left]
      clear h hp
      induction digits with
      | nil => simp
      | cons d ds ih =>
        rw [List.length_cons, Nat.add_right_comm, List.takeD_succ, List.tail_cons, ih]
        rfl
    refine ⟨0, ?_, le_refl 0, zero_lt_one, ?_⟩
    · have hexp : ((p : ℤ) - digits.length) = ((p - digits.length : ℕ) : ℤ) := by omega
      rw [decimal, hexp, zpow_natCast, hpad, CtFile.readDigits_append, CtFile.readDigits_replicate,
        List.length_replicate]
      push_cast
      ring
    · rw [List.drop_eq_nil_of_le hp]
      simp

theorem decimal_pos (hpos : 1 ≤ readDigits 10 digits) (e : ℤ) : 0 < decimal digits e := by
  have : (0 : ℚ) < readDigits 10 digits := by exact_mod_cast hpos
  exact mul_pos this (by positivity)

/-- A number that starts above the unit of a place is at least that unit. -/
theorem pow_le_decimal (hbig : 10 ^ (digits.length - 1) ≤ readDigits 10 digits)
    (hne : digits ≠ []) (e : ℤ) : (10 : ℚ) ^ (e - 1) ≤ decimal digits (e - digits.length) := by
  have hlength : 1 ≤ digits.length := List.length_pos_iff.mpr hne
  have hten : (10 : ℚ) ≠ 0 := by norm_num
  have hcast : (10 : ℚ) ^ (digits.length - 1) ≤ readDigits 10 digits := by exact_mod_cast hbig
  calc (10 : ℚ) ^ (e - 1)
      = 10 ^ (((digits.length - 1 : ℕ) : ℤ) + (e - digits.length)) := by congr 1; omega
    _ = 10 ^ (digits.length - 1) * 10 ^ (e - digits.length) := by
        rw [zpow_add₀ hten, zpow_natCast]
    _ ≤ decimal digits (e - digits.length) := mul_le_mul_of_nonneg_right hcast (by positivity)

theorem decimal_lt_pow (h : AllDigits digits) (e : ℤ) :
    decimal digits (e - digits.length) < (10 : ℚ) ^ e := by
  have hten : (10 : ℚ) ≠ 0 := by norm_num
  have hcast : (readDigits 10 digits : ℚ) < 10 ^ digits.length := by exact_mod_cast h.lt
  calc decimal digits (e - digits.length)
      < 10 ^ digits.length * 10 ^ (e - digits.length) :=
        mul_lt_mul_of_pos_right hcast (by positivity)
    _ = 10 ^ e := by
        rw [← zpow_natCast, ← zpow_add₀ hten]
        congr 1
        omega

/-- Two places of the point that make no difference: the same, both far to the right or both at
the left end. -/
def SamePlace (p e : ℤ) : Prop := p = e ∨ (20 < p ∧ 20 < e) ∨ (p ≤ 0 ∧ e ≤ 0)

theorem fromPoint_negative (negative : Bool) (p : ℤ) :
    (fromPoint negative digits p).negative = negative := by
  unfold fromPoint
  split
  · rfl
  · rfl

theorem fromPoint_ordered (negative : Bool) (p : ℤ) :
    (fromPoint negative digits p).unordered = false := by
  unfold fromPoint
  split
  · rfl
  · rfl

theorem fromPoint_fractional (negative : Bool) (p : ℤ) :
    (fromPoint negative digits p).fractional = (digits.drop p.toNat).any (· != 0x30) := by
  unfold fromPoint
  split
  · rfl
  · rfl

theorem fromPoint_outside (h : AllDigits digits)
    (hbig : 10 ^ (digits.length - 1) ≤ readDigits 10 digits) (hne : digits ≠ []) {p e : ℤ}
    (hplace : SamePlace p e) {negative : Bool}
    (hout : (fromPoint negative digits p).outsideMagnitude = true) :
    2 ^ 64 ≤ decimal digits (e - digits.length) := by
  unfold fromPoint at hout
  by_cases hp : p > 20
  · have he : 20 < e := by
      rcases hplace with rfl | ⟨-, he⟩ | ⟨hle, -⟩
      · exact hp
      · exact he
      · omega
    calc (2 : ℚ) ^ 64 ≤ 10 ^ (20 : ℤ) := by norm_num
      _ ≤ 10 ^ (e - 1) := zpow_le_zpow_right₀ (by norm_num) (by omega)
      _ ≤ _ := pow_le_decimal hbig hne e
  · rw [if_neg hp] at hout
    have hspec := magnitudeLoop_spec p.toNat h 0
    split at hspec
    · rw [hspec] at hout
      exact absurd hout Bool.false_ne_true
    · rename_i hover
      have hplaced : 0 < p := by
        by_contra hle
        rw [show p.toNat = 0 by omega] at hover
        exact hover (Nat.zero_le _)
      have he : p = e := by
        rcases hplace with rfl | ⟨hgt, -⟩ | ⟨hle, -⟩
        · rfl
        · omega
        · omega
      obtain ⟨f, hvalue, hf, -, -⟩ := readDigits_point h p.toNat
      rw [show ((p.toNat : ℕ) : ℤ) = e by omega] at hvalue
      rw [hvalue]
      have hread : 2 ^ 64 ≤ readDigits 10 (digits.takeD p.toNat 0x30) := by
        have : ¬ readDigits 10 (digits.takeD p.toNat 0x30) ≤ uint64Max := hover
        unfold uint64Max at this
        omega
      have hcast : (2 : ℚ) ^ 64 ≤ readDigits 10 (digits.takeD p.toNat 0x30) := by
        exact_mod_cast hread
      linarith

theorem fromPoint_inside (h : AllDigits digits) (hpos : 1 ≤ readDigits 10 digits) {p e : ℤ}
    (hplace : SamePlace p e) {negative : Bool}
    (hin : (fromPoint negative digits p).outsideMagnitude = false) :
    ∃ f : ℚ, decimal digits (e - digits.length) = (fromPoint negative digits p).magnitude.toNat + f ∧
      0 ≤ f ∧ f < 1 ∧ ((fromPoint negative digits p).fractional = true ↔ f ≠ 0) := by
  rw [fromPoint_fractional]
  unfold fromPoint at hin ⊢
  have hp : ¬ p > 20 := fun hp => by
    rw [if_pos hp] at hin
    cases hin
  rw [if_neg hp] at hin ⊢
  have hspec := magnitudeLoop_spec p.toNat h 0
  split at hspec
  · rename_i hfits
    rw [hspec]
    have hmagnitude : (UInt64.ofNat (readOn (0 : UInt64).toNat
        (digits.takeD p.toNat 0x30))).toNat = readDigits 10 (digits.takeD p.toNat 0x30) := by
      refine UInt64.toNat_ofNat_of_lt' ?_
      unfold uint64Max at hfits
      rw [UInt64.size]
      omega
    simp only [hmagnitude]
    rcases lt_or_ge 0 p with hp0 | hp0
    · have he : p = e := by
        rcases hplace with rfl | ⟨hgt, -⟩ | ⟨hle, -⟩
        · rfl
        · omega
        · omega
      have hvalue := readDigits_point h p.toNat
      rw [show ((p.toNat : ℕ) : ℤ) = e by omega] at hvalue
      exact hvalue
    · -- the point stands before the first digit, and nothing is added up
      have he : e ≤ 0 := by
        rcases hplace with rfl | ⟨hgt, -⟩ | ⟨-, hle⟩
        · exact hp0
        · omega
        · exact hle
      have hpositive := decimal_pos hpos (e - digits.length)
      rw [show p.toNat = 0 by omega]
      refine ⟨decimal digits (e - digits.length), ?_, hpositive.le, ?_, ?_⟩
      · simp [CtFile.readDigits_nil]
      · calc decimal digits (e - digits.length) < 10 ^ e := decimal_lt_pow h e
          _ ≤ 10 ^ (0 : ℤ) := zpow_le_zpow_right₀ (by norm_num) he
          _ = 1 := by norm_num
      · rw [List.drop_zero, any_nonzero_iff h]
        exact ⟨fun _ => hpositive.ne', fun _ => by omega⟩
  · have hfalse : (magnitudeLoop p.toNat digits 0).1 = false := hin
    rw [hspec] at hfalse
    cases hfalse

theorem fromPoint_stands (h : AllDigits digits)
    (hbig : 10 ^ (digits.length - 1) ≤ readDigits 10 digits) (hne : digits ≠ []) {p e : ℤ}
    (hplace : SamePlace p e) (negative : Bool) :
    (fromPoint negative digits p).Stands
      (if negative then -decimal digits (e - digits.length)
        else decimal digits (e - digits.length)) := by
  have hpos : 1 ≤ readDigits 10 digits :=
    Nat.le_trans (Nat.one_le_two_pow.trans (Nat.pow_le_pow_left (by omega) _)) hbig
  have hpositive := decimal_pos hpos (e - digits.length)
  have habs : |if negative then -decimal digits (e - digits.length)
      else decimal digits (e - digits.length)| = decimal digits (e - digits.length) := by
    cases negative with
    | true => rw [if_pos rfl, abs_neg, abs_of_pos hpositive]
    | false => rw [if_neg Bool.false_ne_true, abs_of_pos hpositive]
  refine ⟨fromPoint_ordered negative p, ?_, ?_, ?_⟩
  · rw [fromPoint_negative]
    cases negative with
    | true => rw [if_pos rfl, decide_eq_true (by linarith)]
    | false => rw [if_neg Bool.false_ne_true, decide_eq_false (by linarith)]
  · intro hout
    rw [habs]
    exact fromPoint_outside h hbig hne hplace hout
  · intro hin
    obtain ⟨f, hvalue, hf, hf1, hfrac⟩ := fromPoint_inside h hpos hplace hin
    rw [habs, hvalue, hfrac]
    refine ⟨by linarith, by linarith, ?_⟩
    rw [ne_eq, ne_eq, left_eq_add]

end point

/-! ### The parts of a decimal number -/

def isDecimalByte (b : UInt8) : Bool :=
  isDigit b || isSeparator b || isExponentMark b || b == 0x2b || b == 0x2d

theorem not_digit_separator {c : UInt8} (h : isSeparator c = true) : isDigit c = false := by
  simp only [isSeparator, Bool.or_eq_true, beq_iff_eq] at h
  rcases h with rfl | rfl
  · decide
  · decide

theorem not_digit_exponent {c : UInt8} (h : isExponentMark c = true) :
    isDigit c = false ∧ isSeparator c = false := by
  simp only [isExponentMark, Bool.or_eq_true, beq_iff_eq] at h
  rcases h with rfl | rfl
  · decide
  · decide

def EndsDigits (s : Bytes) : Prop := ∀ c, s.head? = some c → isDigit c = false

theorem mantissaLoop_fraction {ds left : Bytes} (h : AllDigits ds) (hleft : EndsDigits left)
    (digits : Bytes) (n : ℕ) :
    mantissaLoop (ds ++ left) digits true n = (digits ++ ds, n + ds.length, left) := by
  induction ds generalizing digits n with
  | nil =>
    rw [List.nil_append, List.append_nil]
    cases left with
    | nil => rfl
    | cons c s => simp [mantissaLoop, hleft c rfl]
  | cons d ds ih =>
    rw [List.cons_append, mantissaLoop, if_pos (h d List.mem_cons_self), if_pos rfl,
      ih fun b hb => h b (List.mem_cons_of_mem _ hb), List.append_assoc, List.singleton_append,
      List.length_cons, Nat.add_right_comm, Nat.add_assoc]

theorem mantissaLoop_eq {int frac fraction left : Bytes} (hint : AllDigits int)
    (hfrac : FractionText frac fraction)
    (hleft : ∀ c, left.head? = some c → isDigit c = false ∧ isSeparator c = false)
    (digits : Bytes) :
    mantissaLoop (int ++ (frac ++ left)) digits false 0 =
      (digits ++ (int ++ fraction), fraction.length, left) := by
  induction int generalizing digits with
  | nil =>
    rw [List.nil_append, List.nil_append]
    cases hfrac with
    | absent =>
      rw [List.nil_append, List.append_nil]
      cases left with
      | nil => rfl
      | cons c s =>
        obtain ⟨hd, hs⟩ := hleft c rfl
        simp [mantissaLoop, hd, hs]
    | digits mark ds hmark hds =>
      rw [List.cons_append, mantissaLoop, if_neg (by simp [not_digit_separator hmark]),
        if_pos (by simp [hmark]), mantissaLoop_fraction hds (fun c hc => (hleft c hc).1),
        Nat.zero_add]
  | cons d int ih =>
    rw [List.cons_append, mantissaLoop, if_pos (hint d List.mem_cons_self),
      if_neg Bool.false_ne_true, ih fun b hb => hint b (List.mem_cons_of_mem _ hb),
      List.append_assoc, List.singleton_append, List.cons_append]

theorem mantissaLoop_fraction_inv {s digits ds left : Bytes} {n m : ℕ}
    (h : mantissaLoop s digits true n = (ds, m, left)) :
    ∃ t, AllDigits t ∧ s = t ++ left ∧ ds = digits ++ t := by
  induction s generalizing digits n with
  | nil =>
    simp only [mantissaLoop, Prod.mk.injEq] at h
    obtain ⟨rfl, -, rfl⟩ := h
    exact ⟨[], fun b hb => absurd hb List.not_mem_nil, rfl, (List.append_nil _).symm⟩
  | cons c s ih =>
    rw [mantissaLoop] at h
    split at h
    · rename_i hc
      obtain ⟨t, ht, rfl, rfl⟩ := ih h
      exact ⟨c :: t, List.forall_mem_cons.mpr ⟨hc, ht⟩, rfl, by simp⟩
    · simp only [Bool.not_true, Bool.and_false, Bool.false_eq_true, if_false,
        Prod.mk.injEq] at h
      obtain ⟨rfl, -, rfl⟩ := h
      exact ⟨[], fun b hb => absurd hb List.not_mem_nil, rfl, (List.append_nil _).symm⟩

theorem mantissaLoop_inv {s digits ds left : Bytes} {n m : ℕ}
    (h : mantissaLoop s digits false n = (ds, m, left)) :
    ∃ int frac fraction, AllDigits int ∧ FractionText frac fraction ∧
      s = int ++ (frac ++ left) ∧ ds = digits ++ (int ++ fraction) := by
  induction s generalizing digits with
  | nil =>
    simp only [mantissaLoop, Prod.mk.injEq] at h
    obtain ⟨rfl, -, rfl⟩ := h
    exact ⟨[], [], [], fun b hb => absurd hb List.not_mem_nil, .absent, rfl, by simp⟩
  | cons c s ih =>
    rw [mantissaLoop] at h
    split at h
    · rename_i hc
      obtain ⟨int, frac, fraction, hint, hfrac, rfl, rfl⟩ := ih h
      exact ⟨c :: int, frac, fraction, List.forall_mem_cons.mpr ⟨hc, hint⟩, hfrac, rfl, by simp⟩
    · split at h
      · rename_i hmark
        obtain ⟨t, ht, rfl, rfl⟩ := mantissaLoop_fraction_inv h
        exact ⟨[], c :: t, t, fun b hb => absurd hb List.not_mem_nil,
          .digits c t (by simpa using hmark) ht, rfl, rfl⟩
      · simp only [Prod.mk.injEq] at h
        obtain ⟨rfl, -, rfl⟩ := h
        exact ⟨[], [], [], fun b hb => absurd hb List.not_mem_nil, .absent, rfl, by simp⟩

/-! ### The exponent -/

theorem exponentLoop_eq {ds : Bytes} (h : AllDigits ds) (e x : ℕ) (hx : x = min 8192 e) :
    exponentLoop x ds = (min 8192 (readOn e ds), []) := by
  induction ds generalizing e x with
  | nil => rw [exponentLoop, hx, readOn, List.foldl_nil]
  | cons d ds ih =>
    have hd := CtFile.charDigit_of_isDigit (h d List.mem_cons_self)
    rw [exponentLoop, if_pos (h d List.mem_cons_self),
      ih (fun b hb => h b (List.mem_cons_of_mem _ hb)) (e * 10 + charDigit d) _ (by omega)]
    rfl

theorem exponentLoop_inv {s : Bytes} {e x : ℕ} (h : exponentLoop e s = (x, [])) : AllDigits s := by
  induction s generalizing e with
  | nil => exact fun b hb => absurd hb List.not_mem_nil
  | cons c s ih =>
    rw [exponentLoop] at h
    split at h
    · rename_i hc
      exact List.forall_mem_cons.mpr ⟨hc, ih h⟩
    · simp at h

/-- An exponent as the reader keeps it. -/
def Clamped (kept exponent : ℤ) : Prop :=
  kept = exponent ∨ (kept = 8192 ∧ 8192 ≤ exponent) ∨ (kept = -8192 ∧ exponent ≤ -8192)

theorem splitSign_digits {ds : Bytes} (h : AllDigits ds) : splitSign ds = (false, ds) := by
  cases ds with
  | nil => rfl
  | cons d ds =>
    have hd := h d List.mem_cons_self
    have : (d == 0x2b || d == 0x2d) = false := by
      rw [Bool.or_eq_false_iff, beq_eq_false_iff_ne, beq_eq_false_iff_ne]
      constructor
      · rintro rfl
        exact absurd hd (by decide)
      · rintro rfl
        exact absurd hd (by decide)
    rw [splitSign, if_neg (by simp [this])]

theorem parseExponent_eq {exp : Bytes} {exponent : ℤ} (h : ExpValue exp exponent) :
    ∃ kept, parseExponent exp = some kept ∧ Clamped kept exponent := by
  have hloop : ∀ ds : Bytes, JsonGrammar.Digits ds →
      exponentLoop 0 ds = (min 8192 (readDigits 10 ds), []) ∧ ([] : Bytes).length ≠ ds.length := by
    intro ds hds
    refine ⟨exponentLoop_eq hds.2 0 0 rfl, ?_⟩
    have := List.length_pos_iff.mpr hds.1
    rw [List.length_nil]
    omega
  cases h with
  | absent => exact ⟨0, rfl, Or.inl rfl⟩
  | positive e sign ds he hsign hds =>
    obtain ⟨hrun, hlength⟩ := hloop ds hds
    have hsplit : splitSign (sign ++ ds) = (false, ds) := by
      rcases hsign with rfl | rfl
      · exact splitSign_digits hds.2
      · rfl
    refine ⟨(min 8192 (readDigits 10 ds) : ℕ), ?_, ?_⟩
    · rw [parseExponent, if_pos he, hsplit]
      simp only [hrun, beq_eq_false_iff_ne.mpr hlength]
      rfl
    · unfold Clamped
      omega
  | negative e ds he hds =>
    obtain ⟨hrun, hlength⟩ := hloop ds hds
    refine ⟨-(min 8192 (readDigits 10 ds) : ℕ), ?_, ?_⟩
    · rw [parseExponent, if_pos he, show splitSign (0x2d :: ds) = (true, ds) from rfl]
      simp only [hrun, beq_eq_false_iff_ne.mpr hlength]
      rfl
    · unfold Clamped
      omega

theorem parseExponent_inv {s : Bytes} {kept : ℤ} (h : parseExponent s = some kept) :
    ∃ exponent, ExpValue s exponent := by
  cases s with
  | nil => exact ⟨0, .absent⟩
  | cons c s =>
    rw [parseExponent] at h
    split at h
    · rename_i hc
      obtain ⟨sign, ds, hsplit, htext, hsign⟩ : ∃ sign ds, (splitSign s).2 = ds ∧ s = sign ++ ds ∧
          (sign = [] ∨ sign = [0x2b] ∨ sign = [0x2d]) := by
        cases s with
        | nil => exact ⟨[], [], rfl, rfl, Or.inl rfl⟩
        | cons d s =>
          by_cases hd : (d == 0x2b || d == 0x2d) = true
          · refine ⟨[d], s, by rw [splitSign, if_pos hd], rfl, ?_⟩
            simpa using hd
          · exact ⟨[], d :: s, by rw [splitSign, if_neg hd], rfl, Or.inl rfl⟩
      obtain ⟨x, left, hrun⟩ : ∃ x left, exponentLoop 0 ds = (x, left) := ⟨_, _, rfl⟩
      simp only [hsplit, hrun] at h
      split at h
      · cases h
      · rename_i hlength
        split at h
        · cases h
        · rename_i hleft
          have hnil : left = [] := by simpa using hleft
          subst hnil
          have hds : JsonGrammar.Digits ds :=
            ⟨fun hnil => hlength (by rw [hnil]; rfl), exponentLoop_inv hrun⟩
          subst htext
          rcases hsign with rfl | rfl | rfl
          · exact ⟨_, .positive c [] ds hc (Or.inl rfl) hds⟩
          · exact ⟨_, .positive c [0x2b] ds hc (Or.inr rfl) hds⟩
          · exact ⟨_, .negative c ds hc hds⟩
    · cases h

/-! ### Decimal numbers -/

theorem FractionText.allDigits {frac fraction : Bytes} (h : FractionText frac fraction) :
    AllDigits fraction := by
  cases h with
  | absent => exact fun b hb => absurd hb List.not_mem_nil
  | digits mark ds hmark hds => exact hds

theorem FractionText.length_le {frac fraction : Bytes} (h : FractionText frac fraction) :
    fraction.length ≤ frac.length := by
  cases h with
  | absent => exact Nat.le_refl _
  | digits mark ds hmark hds => exact Nat.le_succ _

theorem head_of_expValue {exp : Bytes} {exponent : ℤ} (h : ExpValue exp exponent) (c : UInt8)
    (hc : exp.head? = some c) : isDigit c = false ∧ isSeparator c = false := by
  cases h with
  | absent => cases hc
  | positive e sign ds he hsign hds =>
    cases hc
    exact not_digit_exponent he
  | negative e ds he hds =>
    cases hc
    exact not_digit_exponent he

theorem pow_le_readDigits {ds : Bytes} (h : AllDigits ds) (hne : ds ≠ [])
    (hhead : ds.head? ≠ some 0x30) : 10 ^ (ds.length - 1) ≤ readDigits 10 ds := by
  obtain ⟨d, rest, rfl⟩ := List.exists_cons_of_ne_nil hne
  have hd : charDigit d ≠ 0 := by
    rw [ne_eq, CtFile.charDigit_eq_zero (h d List.mem_cons_self)]
    rintro rfl
    exact hhead rfl
  have hone : readDigits 10 [d] = charDigit d := by
    rw [readDigits, List.foldl_cons, List.foldl_nil, Nat.zero_mul, Nat.zero_add]
  rw [← List.singleton_append, CtFile.readDigits_append, hone, List.singleton_append,
    List.length_cons, Nat.add_sub_cancel]
  calc 10 ^ rest.length = 1 * 10 ^ rest.length := (Nat.one_mul _).symm
    _ ≤ charDigit d * 10 ^ rest.length := Nat.mul_le_mul_right _ (by omega)
    _ ≤ _ := Nat.le_add_right _ _

theorem drop_takeWhile_length {α : Type} (p : α → Bool) (s : List α) :
    s.drop (s.takeWhile p).length = s.dropWhile p := by
  induction s with
  | nil => rfl
  | cons c s ih =>
    rw [List.takeWhile_cons, List.dropWhile_cons]
    split
    · rw [List.length_cons, List.drop_succ_cons, ih]
    · rfl

theorem parseDecimal_stands {body : Bytes} {q : ℚ} (h : DecimalText body q)
    (hlength : body.length ≤ 4096) (negative : Bool) {floating : Float} {number : Number}
    (hparse : parseDecimal negative body floating = some number) :
    number.integer.Stands (if negative then -q else q) := by
  obtain ⟨int, frac, fraction, exp, exponent, hint, hfrac, hne, hexp⟩ := h
  obtain ⟨kept, hkept, hclamped⟩ := parseExponent_eq hexp
  have hloop := mantissaLoop_eq hint hfrac (head_of_expValue hexp) []
  rw [List.nil_append] at hloop
  obtain ⟨digits, hdigits⟩ : ∃ digits, digits = int ++ fraction := ⟨_, rfl⟩
  rw [← hdigits] at hloop hne ⊢
  have hall : AllDigits digits := by
    rw [hdigits]
    exact hint.append hfrac.allDigits
  have hsize : digits.length ≤ 4096 ∧ fraction.length ≤ digits.length := by
    have hfracLength := hfrac.length_le
    rw [List.length_append, List.length_append] at hlength
    rw [hdigits, List.length_append]
    omega
  have hisEmpty : digits.isEmpty = false := by
    rw [List.isEmpty_eq_false_iff]
    exact hne
  unfold parseDecimal at hparse
  simp only [hloop, hisEmpty, hkept, Bool.false_eq_true, if_false] at hparse
  have hsplit := congrArg List.length
    (List.takeWhile_append_dropWhile (p := fun b : UInt8 => b == 0x30) (l := digits))
  rw [List.length_append] at hsplit
  obtain ⟨zeros, hzeros⟩ : ∃ zeros, zeros = (digits.takeWhile (· == 0x30)).length := ⟨_, rfl⟩
  rw [← hzeros] at hparse hsplit
  split at hparse
  · -- only zeros: the number is 0, whatever its sign and exponent
    rename_i hzero
    cases hparse
    have hnil : digits.dropWhile (· == 0x30) = [] := by
      rw [← List.length_eq_zero_iff]
      have := beq_iff_eq.mp hzero
      omega
    have hvalue : readDigits 10 digits = 0 := by
      rw [← CtFile.readDigits_dropWhile_zero, hnil, CtFile.readDigits_nil]
    have hq : (if negative then -decimal digits (exponent - fraction.length)
        else decimal digits (exponent - fraction.length)) = 0 := by
      rw [decimal, hvalue]
      simp
    rw [hq]
    refine ⟨rfl, by simp, fun h => absurd h Bool.false_ne_true, fun _ => ?_⟩
    simp
  · rename_i hzero
    cases hparse
    have hnonzero := beq_eq_false_iff_ne.mp (Bool.not_eq_true _ ▸ hzero)
    rw [hzeros, drop_takeWhile_length, ← hzeros]
    obtain ⟨kept', hkept'⟩ : ∃ ds, ds = digits.dropWhile (· == 0x30) := ⟨_, rfl⟩
    rw [← hkept'] at hsplit ⊢
    have hne' : kept' ≠ [] := by
      rintro hnil
      rw [hnil, List.length_nil] at hsplit
      omega
    have hall' : AllDigits kept' := fun b hb =>
      hall b ((List.dropWhile_sublist _).subset (hkept' ▸ hb))
    have hhead : kept'.head? ≠ some 0x30 := by
      intro hhead
      have := List.head?_dropWhile_not (fun b : UInt8 => b == 0x30) digits
      rw [← hkept', hhead] at this
      simp at this
    have hvalue : decimal digits (exponent - fraction.length) =
        decimal kept' ((digits.length - fraction.length + exponent - zeros) - kept'.length) := by
      rw [decimal, decimal, hkept', CtFile.readDigits_dropWhile_zero, ← hkept']
      congr 2
      omega
    rw [hvalue]
    refine fromPoint_stands hall' (pow_le_readDigits hall' hne' hhead) hne' ?_ negative
    unfold SamePlace
    rcases hclamped with rfl | ⟨rfl, hbig⟩ | ⟨rfl, hsmall⟩
    · left
      rfl
    · right; left
      omega
    · right; right
      omega

theorem parseDecimal_inv {negative : Bool} {body : Bytes} {floating : Float} {number : Number}
    (h : parseDecimal negative body floating = some number) : ∃ q, DecimalText body q := by
  unfold parseDecimal at h
  obtain ⟨digits, n, left, hloop⟩ :
      ∃ digits n left, mantissaLoop body [] false 0 = (digits, n, left) := ⟨_, _, _, rfl⟩
  obtain ⟨int, frac, fraction, hint, hfrac, rfl, hdigits⟩ := mantissaLoop_inv hloop
  simp only [hloop] at h
  split at h
  · cases h
  · rename_i hne
    split at h
    · cases h
    · rename_i kept hkept
      obtain ⟨exponent, hexp⟩ := parseExponent_inv hkept
      rw [List.nil_append] at hdigits
      exact ⟨_, .mk int frac fraction left exponent hint hfrac (by simpa [hdigits] using hne) hexp⟩

/-! ### Hexadecimal numbers -/

theorem toInt_toInt64 (bits : UInt64) : bits.toInt64.toInt = signed64 bits.toNat :=
  BitVec.toInt_eq_toNat_bmod bits.toBitVec

theorem stands_signed (bits : UInt64) :
    ({ negative := decide (bits.toInt64.toInt < 0),
       magnitude := if bits.toInt64.toInt < 0 then 0 - bits else bits } : AllIntegerValue).Stands
      (bits.toInt64.toInt : ℚ) := by
  have hbits := bits.toNat_lt
  have hvalue : bits.toInt64.toInt =
      if bits.toNat < 2 ^ 63 then (bits.toNat : ℤ) else bits.toNat - 2 ^ 64 := by
    rw [toInt_toInt64, signed64, Int.bmod_def]
    omega
  have hmagnitude : ((if bits.toInt64.toInt < 0 then 0 - bits else bits).toNat : ℚ) =
      |(bits.toInt64.toInt : ℚ)| := by
    by_cases hneg : bits.toInt64.toInt < 0
    · have hcast : (bits.toInt64.toInt : ℚ) < 0 := by exact_mod_cast hneg
      rw [if_pos hneg, abs_of_neg hcast]
      have hsub : ((0 - bits).toNat : ℤ) = -bits.toInt64.toInt := by
        rw [UInt64.toNat_sub, hvalue]
        have : (0 : UInt64).toNat = 0 := rfl
        omega
      exact_mod_cast congrArg (Int.cast : ℤ → ℚ) hsub
    · have hcast : (0 : ℚ) ≤ bits.toInt64.toInt := by exact_mod_cast not_lt.mp hneg
      rw [if_neg hneg, abs_of_nonneg hcast]
      have hsame : (bits.toNat : ℤ) = bits.toInt64.toInt := by omega
      exact_mod_cast congrArg (Int.cast : ℤ → ℚ) hsame
  refine ⟨rfl, ?_, fun h => absurd h Bool.false_ne_true, fun _ => ?_⟩
  · simp
  · rw [hmagnitude]
    refine ⟨le_refl _, lt_add_one _, ?_⟩
    simp

theorem parseHex_stands {negative : Bool} {ds : Bytes} {number : Number}
    (h : parseHex negative ds = some number) :
    number.integer.Stands
      (signed64 (if negative then -(readDigits 16 ds : ℤ) else readDigits 16 ds) : ℤ) := by
  unfold parseHex at h
  split at h
  · cases h
  · rename_i n hn
    obtain ⟨-, -, rfl, hle⟩ := CtFile.fromCharsAll_eq_some.mp hn
    have hsmall : (UInt64.ofNat (readDigits 16 ds)).toNat = readDigits 16 ds :=
      UInt64.toNat_ofNat_of_lt' (by unfold uint64Max at hle; rw [UInt64.size]; omega)
    simp only at h
    split at h
    · cases h
    · cases h
      have hvalue : (if negative then 0 - UInt64.ofNat (readDigits 16 ds)
          else UInt64.ofNat (readDigits 16 ds)).toInt64.toInt =
          signed64 (if negative then -(readDigits 16 ds : ℤ) else readDigits 16 ds) := by
        rw [toInt_toInt64]
        cases negative with
        | true =>
          have hzero : (0 : UInt64).toNat = 0 := rfl
          unfold uint64Max at hle
          rw [if_pos rfl, if_pos rfl, UInt64.toNat_sub, hsmall, hzero, signed64, signed64,
            ← Int.emod_bmod, ← @Int.emod_bmod (-(readDigits 16 ds : ℤ))]
          congr 1
          omega
        | false => rw [if_neg Bool.false_ne_true, if_neg Bool.false_ne_true, hsmall]
      rw [← hvalue]
      exact stands_signed _

/-! ### The bytes of a literal -/

theorem DecimalText.bytes {body : Bytes} {q : ℚ} (h : DecimalText body q) :
    ∀ b ∈ body, isDecimalByte b = true := by
  obtain ⟨int, frac, fraction, exp, exponent, hint, hfrac, hne, hexp⟩ := h
  have hdigit : ∀ ds : Bytes, AllDigits ds → ∀ b ∈ ds, isDecimalByte b = true :=
    fun ds hds b hb => by simp [isDecimalByte, hds b hb]
  intro b hb
  rcases List.mem_append.mp hb with hb | hb
  · exact hdigit int hint b hb
  · rcases List.mem_append.mp hb with hb | hb
    · cases hfrac with
      | absent => exact absurd hb List.not_mem_nil
      | digits mark ds hmark hds =>
        rcases List.mem_cons.mp hb with rfl | hb
        · simp [isDecimalByte, hmark]
        · exact hdigit _ hds b hb
    · cases hexp with
      | absent => exact absurd hb List.not_mem_nil
      | positive e sign ds he hsign hds =>
        rcases List.mem_cons.mp hb with rfl | hb
        · simp [isDecimalByte, he]
        · rcases List.mem_append.mp hb with hb | hb
          · rcases hsign with rfl | rfl
            · exact absurd hb List.not_mem_nil
            · rw [List.mem_singleton.mp hb]
              decide
          · exact hdigit ds hds.2 b hb
      | negative e ds he hds =>
        rcases List.mem_cons.mp hb with rfl | hb
        · simp [isDecimalByte, he]
        · rcases List.mem_cons.mp hb with rfl | hb
          · decide
          · exact hdigit ds hds.2 b hb

theorem DecimalText.head {body : Bytes} {q : ℚ} (h : DecimalText body q) :
    ∃ c rest, body = c :: rest ∧ (isDigit c || isSeparator c) = true := by
  obtain ⟨int, frac, fraction, exp, exponent, hint, hfrac, hne, hexp⟩ := h
  cases int with
  | cons d int => exact ⟨d, _, rfl, by simp [hint d List.mem_cons_self]⟩
  | nil =>
    cases hfrac with
    | absent => exact absurd rfl hne
    | digits mark ds hmark hds => exact ⟨mark, _, rfl, by simp [hmark]⟩

theorem decimalByte_plain {b : UInt8} (h : isDecimalByte b = true) :
    isBlank b = false ∧ b ≠ 0x78 ∧ b ≠ 0x58 := by
  have hall : ∀ n : Fin 256, isDecimalByte (UInt8.ofFin n) = true →
      isBlank (UInt8.ofFin n) = false ∧ UInt8.ofFin n ≠ 0x78 ∧ UInt8.ofFin n ≠ 0x58 := by
    decide +kernel
  exact hall b.toFin h

theorem startByte_plain {b : UInt8} (h : (isDigit b || isSeparator b) = true) :
    b ≠ 0x2b ∧ b ≠ 0x2d ∧ lowerLetter b ≠ 0x6e ∧ lowerLetter b ≠ 0x69 := by
  have hall : ∀ n : Fin 256, (isDigit (UInt8.ofFin n) || isSeparator (UInt8.ofFin n)) = true →
      UInt8.ofFin n ≠ 0x2b ∧ UInt8.ofFin n ≠ 0x2d ∧ lowerLetter (UInt8.ofFin n) ≠ 0x6e ∧
        lowerLetter (UInt8.ofFin n) ≠ 0x69 := by
    decide +kernel
  exact hall b.toFin h

theorem hexByte_plain {b : UInt8} (h : charDigit b < 16) :
    isBlank b = false ∧ b ≠ 0x2b ∧ b ≠ 0x2d ∧ b ≠ 0x78 ∧ b ≠ 0x58 := by
  have hall : ∀ n : Fin 256, charDigit (UInt8.ofFin n) < 16 → isBlank (UInt8.ofFin n) = false ∧
      UInt8.ofFin n ≠ 0x2b ∧ UInt8.ofFin n ≠ 0x2d ∧ UInt8.ofFin n ≠ 0x78 ∧
        UInt8.ofFin n ≠ 0x58 := by
    decide +kernel
  exact hall b.toFin h

/-- The letters of `nan` and `infinity`. -/
def isSpecialLetter (b : UInt8) : Bool := infinityText.contains b || nanText.contains b

theorem specialLetter_plain {b : UInt8} (h : isSpecialLetter (lowerLetter b) = true) :
    isBlank b = false ∧ b ≠ 0x2b ∧ b ≠ 0x2d ∧ b ≠ 0x2c ∧ b ≠ 0x30 ∧ isDigit b = false ∧
      isSeparator b = false := by
  have hall : ∀ n : Fin 256, isSpecialLetter (lowerLetter (UInt8.ofFin n)) = true →
      isBlank (UInt8.ofFin n) = false ∧ UInt8.ofFin n ≠ 0x2b ∧ UInt8.ofFin n ≠ 0x2d ∧
        UInt8.ofFin n ≠ 0x2c ∧ UInt8.ofFin n ≠ 0x30 ∧ isDigit (UInt8.ofFin n) = false ∧
        isSeparator (UInt8.ofFin n) = false := by
    decide +kernel
  exact hall b.toFin h

def IsSpecial (body : Bytes) : Prop :=
  body.map lowerLetter = nanText ∨ body.map lowerLetter = infText ∨
    body.map lowerLetter = infinityText

theorem IsSpecial.bytes {body : Bytes} (h : IsSpecial body) :
    ∀ b ∈ body, isSpecialLetter (lowerLetter b) = true := by
  have hword : ∀ w : Bytes, w.all isSpecialLetter = true → body.map lowerLetter = w →
      ∀ b ∈ body, isSpecialLetter (lowerLetter b) = true := by
    intro w hw heq b hb
    have hmem : lowerLetter b ∈ w := by
      rw [← heq]
      exact List.mem_map_of_mem hb
    exact List.all_eq_true.mp hw _ hmem
  rcases h with h | h | h
  · exact hword _ (by decide) h
  · exact hword _ (by decide) h
  · exact hword _ (by decide) h

theorem IsSpecial.head {body : Bytes} (h : IsSpecial body) : ∃ c rest, body = c :: rest := by
  rcases body with _ | ⟨c, rest⟩
  · rcases h with h | h | h
    · cases h
    · cases h
    · cases h
  · exact ⟨c, rest, rfl⟩

theorem IsSpecial.letter {c : UInt8} {rest : Bytes} (h : IsSpecial (c :: rest)) :
    lowerLetter c = 0x6e ∧ (c :: rest).map lowerLetter = nanText ∨
      lowerLetter c = 0x69 ∧ (c :: rest).map lowerLetter ≠ nanText := by
  rcases h with h | h | h
  · exact Or.inl ⟨(List.cons.inj h).1, h⟩
  · exact Or.inr ⟨(List.cons.inj h).1, fun hn => absurd (h.symm.trans hn) (by decide)⟩
  · exact Or.inr ⟨(List.cons.inj h).1, fun hn => absurd (h.symm.trans hn) (by decide)⟩

theorem DoubleText.letter {t : Bytes} {cls : FloatClass} (h : DoubleText t cls) {c : UInt8}
    {minus rest : Bytes} (hminus : minus = [] ∨ minus = [0x2d]) (ht : t = minus ++ c :: rest)
    (hc : c ≠ 0x2d) :
    (cls = .nan → lowerLetter c = 0x6e) ∧ (cls = .infinite → lowerLetter c = 0x69) := by
  have hfirst : ∀ (sign word tail : Bytes) (x : UInt8), sign = [] ∨ sign = [0x2d] →
      sign ++ (word ++ tail) = minus ++ c :: rest → (word.map lowerLetter).head? = some x →
      x ≠ 0x2d → lowerLetter c = x := by
    intro sign word tail x hsign heq hword hx
    rcases word with _ | ⟨d, ds⟩
    · cases hword
    · have hd : lowerLetter d = x := Option.some.inj hword
      rcases hsign with rfl | rfl
      · rcases hminus with rfl | rfl
        · rw [← (List.cons.inj heq).1]
          exact hd
        · rw [(List.cons.inj heq).1] at hd
          exact absurd hd.symm hx
      · rcases hminus with rfl | rfl
        · exact absurd (List.cons.inj heq).1.symm hc
        · rw [← (List.cons.inj (List.cons.inj heq).2).1]
          exact hd
  cases h with
  | finite sign body q hsign hbody => exact ⟨fun h => (by cases h), fun h => (by cases h)⟩
  | infinite sign body hsign hbody =>
    refine ⟨fun h => (by cases h), fun _ => ?_⟩
    refine hfirst sign body [] 0x69 hsign (by rw [List.append_nil]; exact ht) ?_ (by decide)
    rcases hbody with hbody | hbody
    · rw [hbody]
      rfl
    · rw [hbody]
      rfl
  | nan sign body tag hsign hbody htag =>
    refine ⟨fun _ => ?_, fun h => (by cases h)⟩
    exact hfirst sign body tag 0x6e hsign ht (by rw [hbody]; rfl) (by decide)

/-! ### The whole reader -/

section reader

variable {fromChars : FromChars} {hex : Bool} {sign body : Bytes} {v : LiteralValue}

theorem BodyText.bytes {negative : Bool} (h : BodyText hex negative body v) :
    ∀ b ∈ body, isBlank b = false := by
  cases h with
  | decimal _ _ q hq => exact fun b hb => (decimalByte_plain (hq.bytes b hb)).1
  | inf _ _ hinf => exact fun b hb => (specialLetter_plain (IsSpecial.bytes (Or.inr hinf) b hb)).1
  | nan _ _ hnan => exact fun b hb => (specialLetter_plain (IsSpecial.bytes (Or.inl hnan) b hb)).1
  | marked _ _ x ds hx hne hds =>
    intro b hb
    rcases List.mem_cons.mp hb with rfl | hb
    · decide
    · rcases List.mem_cons.mp hb with rfl | hb
      · rcases hx with rfl | rfl
        · decide
        · decide
      · exact (hexByte_plain (hds b hb)).1
  | plain _ ds hne hds => exact fun b hb => (hexByte_plain (hds b hb)).1

theorem BodyText.head {negative : Bool} (h : BodyText hex negative body v) :
    ∃ c rest, body = c :: rest ∧ c ≠ 0x2b ∧ c ≠ 0x2d := by
  have hspecial : IsSpecial body → ∃ c rest, body = c :: rest ∧ c ≠ 0x2b ∧ c ≠ 0x2d := by
    intro hs
    obtain ⟨c, rest, rfl⟩ := hs.head
    have hc := specialLetter_plain (hs.bytes c List.mem_cons_self)
    exact ⟨c, rest, rfl, hc.2.1, hc.2.2.1⟩
  cases h with
  | decimal _ _ q hq =>
    obtain ⟨c, rest, rfl, hc⟩ := hq.head
    exact ⟨c, rest, rfl, (startByte_plain hc).1, (startByte_plain hc).2.1⟩
  | inf _ _ hinf => exact hspecial (Or.inr hinf)
  | nan _ _ hnan => exact hspecial (Or.inl hnan)
  | marked _ _ x ds hx hne hds => exact ⟨0x30, x :: ds, rfl, by decide, by decide⟩
  | plain _ ds hne hds =>
    obtain ⟨c, rest, rfl⟩ := List.exists_cons_of_ne_nil hne
    have hc := hexByte_plain (hds c List.mem_cons_self)
    exact ⟨c, rest, rfl, hc.2.1, hc.2.2.1⟩

theorem splitSign_eq (hsign : sign = [] ∨ sign = [0x2b] ∨ sign = [0x2d])
    (hbody : ∃ c rest, body = c :: rest ∧ c ≠ 0x2b ∧ c ≠ 0x2d) :
    splitSign (sign ++ body) = (sign == [0x2d], body) := by
  obtain ⟨c, rest, rfl, hplus, hminus⟩ := hbody
  rcases hsign with rfl | rfl | rfl
  · rw [List.nil_append, splitSign, if_neg (by simp [hplus, hminus])]
    rfl
  · rfl
  · rfl

/-- Before a word, only a minus sign is left for `std::from_chars`. -/
theorem doubleToken_special (hsign : sign = [] ∨ sign = [0x2b] ∨ sign = [0x2d]) {c : UInt8}
    {rest : Bytes} (h : IsSpecial (c :: rest)) :
    ∃ minus tail, (minus = [] ∨ minus = [0x2d]) ∧
      doubleToken (sign ++ c :: rest) = minus ++ c :: tail := by
  have hc := specialLetter_plain (h.bytes c List.mem_cons_self)
  have hkeep : (if c == 0x2c then 0x2e else c) = c := if_neg (by simp [hc.2.2.2.1])
  rcases hsign with rfl | rfl | rfl
  · refine ⟨[], rest.map fun c => if c == 0x2c then 0x2e else c, Or.inl rfl, ?_⟩
    unfold doubleToken
    simp only [List.nil_append, List.map_cons, hkeep, List.head?_cons]
    rw [if_neg (by simp [hc.2.1])]
  · refine ⟨[], rest.map fun c => if c == 0x2c then 0x2e else c, Or.inl rfl, ?_⟩
    unfold doubleToken
    simp only [List.cons_append, List.nil_append, List.map_cons, hkeep]
    rfl
  · refine ⟨[0x2d], rest.map fun c => if c == 0x2c then 0x2e else c, Or.inr rfl, ?_⟩
    unfold doubleToken
    simp only [List.cons_append, List.nil_append, List.map_cons, hkeep]
    rfl

theorem startsHex_eq_false (h : ∀ b ∈ body, b ≠ 0x78 ∧ b ≠ 0x58) : startsHex body = false := by
  unfold startsHex
  rcases body with _ | ⟨a, _ | ⟨b, rest⟩⟩
  · rfl
  · rfl
  · have hb := h b (by simp)
    simp [hb.1, hb.2]

theorem IsSpecial.startsHex (h : IsSpecial body) : startsHex body = false := by
  obtain ⟨c, rest, rfl⟩ := h.head
  have hc := specialLetter_plain (h.bytes c List.mem_cons_self)
  simp [CheatEngine.startsHex, hc.2.2.2.2.1]

theorem IsSpecial.not_decimal (h : IsSpecial body) (negative : Bool) (floating : Float) :
    parseDecimal negative body floating = none := by
  obtain ⟨c, rest, rfl⟩ := h.head
  have hc := specialLetter_plain (h.bytes c List.mem_cons_self)
  have hloop : mantissaLoop (c :: rest) [] false 0 = ([], 0, c :: rest) := by
    simp [mantissaLoop, hc.2.2.2.2.2.1, hc.2.2.2.2.2.2]
  simp [parseDecimal, hloop]

theorem DecimalText.not_special {q : ℚ} (h : DecimalText body q) (negative : Bool)
    (cls : FloatClass) (floating : Float) : parseSpecial negative body cls floating = none := by
  obtain ⟨c, rest, rfl, hc⟩ := h.head
  have hplain := startByte_plain hc
  have hne : ∀ x w, (c :: rest).map lowerLetter = x :: w → lowerLetter c = x :=
    fun x w h => (List.cons.inj h).1
  unfold parseSpecial
  rw [if_pos]
  simp only [Bool.and_eq_true, bne_iff_ne]
  exact ⟨⟨fun h => hplain.2.2.1 (hne _ _ h), fun h => hplain.2.2.2 (hne _ _ h)⟩,
    fun h => hplain.2.2.2 (hne _ _ h)⟩

/-- The word that was read gives the class of the double, and the flags follow the class. -/
theorem parseToken_special (hgrammar : StandardGrammar fromChars)
    (hsign : sign = [] ∨ sign = [0x2b] ∨ sign = [0x2d]) (hspecial : IsSpecial body)
    {number : Number} (hparse : parseToken fromChars (sign ++ body) false = some number) :
    number.integer.negative = (sign == [0x2d]) ∧
      number.integer.unordered = decide (body.map lowerLetter = nanText) ∧
      number.integer.outsideMagnitude = !number.integer.unordered := by
  obtain ⟨c, rest, rfl⟩ := hspecial.head
  have hc := specialLetter_plain (hspecial.bytes c List.mem_cons_self)
  have hsplit : splitSign (sign ++ c :: rest) = (sign == [0x2d], c :: rest) :=
    splitSign_eq hsign ⟨c, rest, rfl, hc.2.1, hc.2.2.1⟩
  obtain ⟨minus, tail, hminus, htoken⟩ := doubleToken_special hsign hspecial
  unfold parseToken at hparse
  simp only [hsplit, hspecial.startsHex, htoken, List.isEmpty_cons, Bool.or_self,
    Bool.false_eq_true, if_false] at hparse
  split at hparse
  · cases hparse
  · rw [hspecial.not_decimal] at hparse
    cases hparse
  · rename_i cls floating hfinite hread
    have hletter := (hgrammar _ _ _ hread).letter hminus rfl hc.2.2.1
    unfold parseSpecial at hparse
    simp only at hparse
    split at hparse
    · cases hparse
    · cases hparse
      refine ⟨rfl, ?_, rfl⟩
      rcases hspecial.letter with ⟨hfirst, hnan⟩ | ⟨hfirst, hnan⟩
      · rw [decide_eq_true hnan]
        cases cls with
        | finite => exact absurd rfl hfinite
        | infinite =>
          have := hletter.2 rfl
          rw [hfirst] at this
          exact absurd this (by decide)
        | nan => rfl
      · rw [decide_eq_false hnan]
        cases cls with
        | finite => exact absurd rfl hfinite
        | infinite => rfl
        | nan =>
          have := hletter.1 rfl
          rw [hfirst] at this
          exact absurd this (by decide)

theorem parseToken_decimal {q : ℚ} (hsign : sign = [] ∨ sign = [0x2b] ∨ sign = [0x2d])
    (hbody : DecimalText body q) {number : Number}
    (hparse : parseToken fromChars (sign ++ body) false = some number) :
    ∃ floating, parseDecimal (sign == [0x2d]) body floating = some number := by
  have hhex : startsHex body = false :=
    startsHex_eq_false fun b hb => (decimalByte_plain (hbody.bytes b hb)).2
  have hsplit := splitSign_eq hsign
    (BodyText.head (BodyText.decimal (sign == [0x2d]) body q hbody))
  obtain ⟨c, rest, hcons, -⟩ := hbody.head
  have hempty : body.isEmpty = false := by rw [hcons]; rfl
  unfold parseToken at hparse
  simp only [hsplit, hhex, hempty, Bool.or_self, Bool.false_eq_true, if_false] at hparse
  split at hparse
  · cases hparse
  · exact ⟨_, hparse⟩
  · rw [hbody.not_special] at hparse
    cases hparse

theorem parseToken_describes (hgrammar : StandardGrammar fromChars)
    (hsign : sign = [] ∨ sign = [0x2b] ∨ sign = [0x2d])
    (hbody : BodyText hex (sign == [0x2d]) body v) (hlength : body.length ≤ 4096)
    {number : Number} (hparse : parseToken fromChars (sign ++ body) hex = some number) :
    v.Describes number.integer := by
  have hsplit := splitSign_eq hsign hbody.head
  obtain ⟨first, tail, hcons, -⟩ := hbody.head
  have hempty : body.isEmpty = false := by rw [hcons]; rfl
  cases hbody with
  | decimal _ _ q hq =>
    obtain ⟨floating, hdecimal⟩ := parseToken_decimal hsign hq hparse
    exact parseDecimal_stands hq hlength _ hdecimal
  | inf _ _ hinf =>
    obtain ⟨hneg, hun, hout⟩ := parseToken_special hgrammar hsign (Or.inr hinf) hparse
    have hnan : body.map lowerLetter ≠ nanText := by
      rcases hinf with h | h
      · rw [h]
        decide
      · rw [h]
        decide
    rw [decide_eq_false hnan] at hun
    rw [hun] at hout
    exact ⟨hun, hout, hneg⟩
  | nan _ _ hnan =>
    obtain ⟨hneg, hun, hout⟩ := parseToken_special hgrammar hsign (Or.inl hnan) hparse
    rw [decide_eq_true hnan] at hun
    exact hun
  | marked _ _ x ds hx hne hds =>
    have hhex : startsHex (0x30 :: x :: ds) = true := by
      rcases hx with rfl | rfl
      · simp [startsHex]
      · simp [startsHex]
    unfold parseToken at hparse
    simp only [hsplit, hhex, List.isEmpty_cons, Bool.or_true, Bool.false_eq_true, if_false,
      if_true, List.drop_succ_cons, List.drop_zero] at hparse
    exact parseHex_stands hparse
  | plain _ ds hne hds =>
    have hhex : startsHex body = false :=
      startsHex_eq_false fun b hb => (hexByte_plain (hds b hb)).2.2.2
    unfold parseToken at hparse
    simp only [hsplit, hhex, hempty, Bool.or_false, Bool.false_eq_true, if_false,
      if_true] at hparse
    exact parseHex_stands hparse

theorem trimBlank_literal {before after : Bytes} (hbefore : ∀ b ∈ before, isBlank b = true)
    (hafter : ∀ b ∈ after, isBlank b = true)
    (hsign : sign = [] ∨ sign = [0x2b] ∨ sign = [0x2d]) {negative : Bool}
    (hbody : BodyText hex negative body v) :
    trimBlank (before ++ (sign ++ (body ++ after))) = sign ++ body := by
  rw [← List.append_assoc sign]
  refine Slices.trim_append hbefore hafter fun b hb => ?_
  rcases List.mem_append.mp hb with hb | hb
  · rcases hsign with rfl | rfl | rfl
    · exact absurd hb List.not_mem_nil
    · rw [List.mem_singleton.mp hb]
      decide
    · rw [List.mem_singleton.mp hb]
      decide
  · exact hbody.bytes b hb

theorem parseNumber_describes (hgrammar : StandardGrammar fromChars) {text : Bytes}
    {number : Number} (hparse : parseNumber fromChars text hex = some number)
    (hliteral : Literal hex text v) : v.Describes number.integer := by
  obtain ⟨before, sign, body, after, hbefore, hafter, hsign, hbody, rfl⟩ := hliteral
  unfold parseNumber at hparse
  split at hparse
  · cases hparse
  · rename_i hlength
    simp only [trimBlank_literal hbefore hafter hsign hbody] at hparse
    split at hparse
    · cases hparse
    · refine parseToken_describes hgrammar hsign hbody ?_ hparse
      simp only [List.length_append] at hlength
      omega

theorem splitSign_inv (input : Bytes) :
    ∃ sign body, (sign = [] ∨ sign = [0x2b] ∨ sign = [0x2d]) ∧ input = sign ++ body ∧
      splitSign input = (sign == [0x2d], body) := by
  cases input with
  | nil => exact ⟨[], [], Or.inl rfl, rfl, rfl⟩
  | cons c s =>
    by_cases hc : (c == 0x2b || c == 0x2d) = true
    · refine ⟨[c], s, by simpa using hc, rfl, ?_⟩
      rw [splitSign, if_pos hc]
      congr 1
      simp
    · exact ⟨[], c :: s, Or.inl rfl, rfl, by rw [splitSign, if_neg hc]; rfl⟩

theorem parseHex_inv {negative : Bool} {ds : Bytes} {number : Number}
    (h : parseHex negative ds = some number) : ds ≠ [] ∧ ∀ b ∈ ds, charDigit b < 16 := by
  unfold parseHex at h
  split at h
  · cases h
  · rename_i n hn
    obtain ⟨hne, hds, -⟩ := CtFile.fromCharsAll_eq_some.mp hn
    exact ⟨hne, hds⟩

theorem startsHex_inv (h : startsHex body = true) :
    ∃ x ds, (x = 0x78 ∨ x = 0x58) ∧ body = 0x30 :: x :: ds := by
  unfold startsHex at h
  rcases body with _ | ⟨a, _ | ⟨x, ds⟩⟩
  · cases h
  · simp at h
  · simp only [List.head?_cons, List.getD_cons_succ, List.getD_cons_zero, Bool.and_eq_true,
      Bool.or_eq_true, beq_iff_eq, Option.some.injEq] at h
    exact ⟨x, ds, h.2, by rw [h.1.2]⟩

theorem parseToken_inv {negative : Bool} {input : Bytes} {number : Number}
    (hsplit : splitSign input = (negative, body))
    (h : parseToken fromChars input hex = some number) :
    ∃ v, BodyText hex negative body v := by
  unfold parseToken at h
  simp only [hsplit] at h
  split at h
  · cases h
  · split at h
    · rename_i hhex
      by_cases hstart : startsHex body = true
      · obtain ⟨x, ds, hx, rfl⟩ := startsHex_inv hstart
        rw [if_pos hstart] at h
        obtain ⟨hne, hds⟩ := parseHex_inv h
        exact ⟨_, .marked hex negative x ds hx hne hds⟩
      · rw [if_neg hstart] at h
        obtain ⟨hne, hds⟩ := parseHex_inv h
        have htrue : hex = true := by simpa [hstart] using hhex
        subst htrue
        exact ⟨_, .plain negative body hne hds⟩
    · rename_i hhex
      have hfalse : hex = false := by
        cases hex with
        | false => rfl
        | true => exact absurd rfl hhex
      subst hfalse
      split at h
      · cases h
      · obtain ⟨q, hq⟩ := parseDecimal_inv h
        exact ⟨_, .decimal negative body q hq⟩
      · unfold parseSpecial at h
        simp only at h
        split at h
        · cases h
        · rename_i hspecial
          simp only [Bool.and_eq_true, bne_iff_ne, not_and_or, not_not] at hspecial
          rcases hspecial with (hnan | hinf) | hinf
          · exact ⟨_, .nan negative body hnan⟩
          · exact ⟨_, .inf negative body (Or.inl hinf)⟩
          · exact ⟨_, .inf negative body (Or.inr hinf)⟩

theorem parseNumber_literal {text : Bytes} {number : Number}
    (h : parseNumber fromChars text hex = some number) : ∃ v, Literal hex text v := by
  unfold parseNumber at h
  split at h
  · cases h
  · simp only at h
    split at h
    · cases h
    · obtain ⟨before, after, hbefore, hafter, htext⟩ := Slices.trim_split isBlank text
      obtain ⟨sign, body, hsign, hinput, hsplit⟩ := splitSign_inv (trimBlank text)
      obtain ⟨v, hv⟩ := parseToken_inv hsplit h
      refine ⟨v, before, sign, body, after, hbefore, hafter, hsign, hv, ?_⟩
      rw [← List.append_assoc sign, ← hinput]
      exact htext

end reader

/-! ### The comparison -/

namespace LiteralValue

variable {v : LiteralValue} {c : ℤ}

theorem order_eq_two : v.order c = 2 ↔ v = nan := by
  cases v with
  | nan => exact ⟨fun _ => rfl, fun _ => rfl⟩
  | infinite negative => cases negative <;> simp [order]
  | rational q =>
    rcases lt_trichotomy (c : ℚ) q with h | h | h
    · simp [order_of_lt h]
    · simp [order_of_eq h.symm]
    · simp [order_of_gt h]

theorem order_eq_zero : v.order c = 0 ↔ v.Equals c := by
  cases v with
  | nan => simp [order, Equals]
  | infinite negative => cases negative <;> simp [order, Equals]
  | rational q =>
    rcases lt_trichotomy (c : ℚ) q with h | h | h
    · simp [order_of_lt h, Equals, h.ne']
    · simp [order_of_eq h.symm, Equals, h]
    · simp [order_of_gt h, Equals, h.ne]

theorem order_lt_zero : v.order c < 0 ↔ v.Above c := by
  cases v with
  | nan => simp [order, Above]
  | infinite negative => cases negative <;> simp [order, Above]
  | rational q =>
    rcases lt_trichotomy (c : ℚ) q with h | h | h
    · simp [order_of_lt h, Above, h]
    · simp [order_of_eq h.symm, Above, h]
    · simp [order_of_gt h, Above, h.le]

theorem order_gt_zero (hv : v ≠ nan) : 0 < v.order c ↔ v.Below c := by
  cases v with
  | nan => exact absurd rfl hv
  | infinite negative => cases negative <;> simp [order, Below]
  | rational q =>
    rcases lt_trichotomy (c : ℚ) q with h | h | h
    · simp [order_of_lt h, Below, h.le]
    · simp [order_of_eq h.symm, Below, h]
    · simp [order_of_gt h, Below, h]

theorem order_le_zero : v.order c ≤ 0 ↔ v.Above c ∨ v.Equals c := by
  rw [le_iff_lt_or_eq, order_lt_zero, order_eq_zero]

theorem order_ge_zero (hv : v ≠ nan) : v.order c ≥ 0 ↔ v.Below c ∨ v.Equals c := by
  rw [ge_iff_le, le_iff_lt_or_eq, order_gt_zero hv, eq_comm, order_eq_zero]

end LiteralValue

theorem compare_eq_two (value : AllIntegerValue) (c : ℤ) :
    value.compare c = 2 ↔ value.unordered = true := by
  unfold AllIntegerValue.compare
  constructor
  · intro h
    by_contra hun
    simp only [hun, if_false] at h
    split_ifs at h <;> omega
  · intro h
    rw [if_pos h]

section compare

variable {config : ScanConfig} {lower upper : AllIntegerValue} {v w : LiteralValue} {c : ℤ}

theorem unordered_iff (h : lower.compare c = v.order c) : lower.unordered = true ↔ v = .nan := by
  rw [← compare_eq_two lower c, h, LiteralValue.order_eq_two]

theorem compareAllIntegerLiteral_between (hcompare : config.compareType = .between)
    (hlower : config.allIntegerValue = some lower) (hupper : config.allIntegerValue2 = some upper)
    (hv : lower.compare c = v.order c) (hw : upper.compare c = w.order c) :
    compareAllIntegerLiteral config c = true ↔ LiteralValue.Matches .between v w c := by
  unfold compareAllIntegerLiteral LiteralValue.Matches
  simp only [hlower, hupper, hcompare, ScanCompare.literal, hv, hw, Bool.not_true,
    Bool.false_eq_true, if_false]
  by_cases hun : lower.unordered = true
  · rw [if_pos hun, (unordered_iff hv).mp hun]
    simp [LiteralValue.Below, LiteralValue.Above, LiteralValue.Equals]
  · have hvn : v ≠ .nan := fun h => hun ((unordered_iff hv).mpr h)
    rw [if_neg hun]
    by_cases hun2 : upper.unordered = true
    · rw [if_pos hun2, (unordered_iff hw).mp hun2]
      simp [LiteralValue.Below, LiteralValue.Above, LiteralValue.Equals]
    · have hwn : w ≠ .nan := fun h => hun2 ((unordered_iff hw).mpr h)
      rw [if_neg hun2, Bool.or_eq_true, Bool.and_eq_true, Bool.and_eq_true, decide_eq_true_eq,
        decide_eq_true_eq, decide_eq_true_eq, decide_eq_true_eq, LiteralValue.order_ge_zero hvn,
        LiteralValue.order_le_zero, LiteralValue.order_ge_zero hwn, LiteralValue.order_le_zero]

theorem compareAllIntegerLiteral_single (hliteral : config.compareType.literal = true)
    (hcompare : config.compareType ≠ .between) (hlower : config.allIntegerValue = some lower)
    (hv : lower.compare c = v.order c) :
    compareAllIntegerLiteral config c = true ↔
      LiteralValue.Matches config.compareType v w c := by
  have hun := unordered_iff hv
  unfold compareAllIntegerLiteral LiteralValue.Matches
  cases hkind : config.compareType with
  | exact =>
    simp only [hlower, ScanCompare.literal, Bool.not_true, Bool.false_eq_true, if_false, hv]
    split
    · rename_i h
      rw [hun.mp h]
      simp [LiteralValue.Equals]
    · rw [beq_iff_eq, LiteralValue.order_eq_zero]
  | greater =>
    simp only [hlower, ScanCompare.literal, Bool.not_true, Bool.false_eq_true, if_false, hv]
    split
    · rename_i h
      rw [hun.mp h]
      simp [LiteralValue.Below]
    · rename_i h
      rw [decide_eq_true_eq, gt_iff_lt, LiteralValue.order_gt_zero fun hn => h (hun.mpr hn)]
  | less =>
    simp only [hlower, ScanCompare.literal, Bool.not_true, Bool.false_eq_true, if_false, hv]
    split
    · rename_i h
      rw [hun.mp h]
      simp [LiteralValue.Above]
    · rw [decide_eq_true_eq, LiteralValue.order_lt_zero]
  | between => exact absurd hkind hcompare
  | _ =>
    rw [hkind] at hliteral
    cases hliteral

end compare

theorem parseAllValues_ok {fromChars : FromChars} {config parsed : ScanConfig}
    {first second : Bytes} {hex : Bool} (hneeds : needsLiteral config = true)
    (h : ScanConfig.parseAllValues fromChars config first second hex = some parsed) :
    parsed.compareType = config.compareType ∧
      (∃ lower, parseNumber fromChars first hex = some lower ∧
        parsed.allIntegerValue = some lower.integer) ∧
      (config.compareType = .between → ∃ upper, parseNumber fromChars second hex = some upper ∧
        parsed.allIntegerValue2 = some upper.integer) := by
  unfold ScanConfig.parseAllValues at h
  simp only [hneeds, Bool.not_true, Bool.false_eq_true, if_false] at h
  split at h
  · cases h
  · rename_i lower hlower
    split at h
    · rename_i hbetween
      split at h
      · cases h
      · rename_i upper hupper
        cases h
        exact ⟨rfl, ⟨lower, hlower, rfl⟩, fun _ => ⟨upper, hupper, rfl⟩⟩
    · rename_i hbetween
      cases h
      exact ⟨rfl, ⟨lower, hlower, rfl⟩, fun hb => absurd hb hbetween⟩

/-- Every literal that is accepted stands for a number, an infinity or no number, and is compared
with every 64-bit integer exactly as that; a search compares exactly with one or two of them. -/
theorem literal_comparison_exact {fromChars : FromChars} (hgrammar : StandardGrammar fromChars)
    (hex : Bool) :
    (∀ text number, parseNumber fromChars text hex = some number →
      (∃ v, Literal hex text v) ∧ ∀ v, Literal hex text v → ∀ c : ℤ, -2 ^ 63 ≤ c → c < 2 ^ 63 →
        number.integer.compare c = v.order c) ∧
    (∀ config first second parsed, config.compareType.literal = true →
      needsLiteral config = true →
      ScanConfig.parseAllValues fromChars config first second hex = some parsed →
      (∃ v, Literal hex first v) ∧
      (config.compareType = .between → ∃ w, Literal hex second w) ∧
      ∀ v w, Literal hex first v → (config.compareType = .between → Literal hex second w) →
        ∀ c : ℤ, -2 ^ 63 ≤ c → c < 2 ^ 63 →
          (compareAllIntegerLiteral parsed c = true ↔
            LiteralValue.Matches config.compareType v w c)) := by
  constructor
  · intro text number hparse
    exact ⟨parseNumber_literal hparse,
      fun v hv c hlow hhigh =>
        compare_describes (parseNumber_describes hgrammar hparse hv) hlow hhigh⟩
  · intro config first second parsed hliteral hneeds hparse
    obtain ⟨hkind, ⟨lower, hlower, hvalue⟩, hupper⟩ := parseAllValues_ok hneeds hparse
    refine ⟨parseNumber_literal hlower, fun hb => ?_, ?_⟩
    · obtain ⟨upper, hup, -⟩ := hupper hb
      exact parseNumber_literal hup
    · intro v w hv hw c hlow hhigh
      have hcompare := compare_describes (parseNumber_describes hgrammar hlower hv) hlow hhigh
      by_cases hb : config.compareType = .between
      · obtain ⟨upper, hup, hvalue2⟩ := hupper hb
        rw [hb] at hkind ⊢
        exact compareAllIntegerLiteral_between hkind hvalue hvalue2 hcompare
          (compare_describes (parseNumber_describes hgrammar hup (hw hb)) hlow hhigh)
      · rw [← hkind] at hb hliteral ⊢
        exact compareAllIntegerLiteral_single hliteral hb hvalue hcompare

/-- `std::from_chars` as far as it reads `-2.5`. -/
def readsMinusTwoAndAHalf : FromChars := fun text =>
  if text = [0x2d, 0x32, 0x2e, 0x35] then some (.finite, -2.5) else none

theorem readsMinusTwoAndAHalf_standard : StandardGrammar readsMinusTwoAndAHalf := by
  intro text cls floating h
  unfold readsMinusTwoAndAHalf at h
  split at h
  · rename_i htext
    cases h
    rw [htext]
    refine DoubleText.finite [0x2d] _ _ (Or.inr rfl) (DecimalText.mk [0x32] [0x2e, 0x35] [0x35] [] 0
      (fun b hb => ?_) (.digits 0x2e [0x35] (by decide) fun b hb => ?_) (by simp) .absent)
    · rw [List.mem_singleton.mp hb]
      decide
    · rw [List.mem_singleton.mp hb]
      decide
  · cases h

/-- ` -2,5` lies between -3 and -2. -/
theorem literal_minus_two_and_a_half :
    ∃ number, parseNumber readsMinusTwoAndAHalf [0x20, 0x2d, 0x32, 0x2c, 0x35] false = some number ∧
      number.integer.compare (-2) = 1 ∧ number.integer.compare (-3) = -1 := by
  obtain ⟨hexact, -⟩ := literal_comparison_exact readsMinusTwoAndAHalf_standard false
  have hliteral : Literal false [0x20, 0x2d, 0x32, 0x2c, 0x35] (.rational (-(5 / 2))) := by
    refine ⟨[0x20], [0x2d], [0x32, 0x2c, 0x35], [], by simp; decide, by simp, by simp, ?_, rfl⟩
    have hvalue : (5 / 2 : ℚ) = decimal ([0x32] ++ [0x35]) (0 - ([0x35] : Bytes).length) := by
      have hread : readDigits 10 ([0x32] ++ [0x35]) = 25 := by decide
      rw [decimal, hread]
      norm_num
    rw [hvalue]
    refine BodyText.decimal true _ _ (DecimalText.mk [0x32] [0x2c, 0x35] [0x35] [] 0
      (fun b hb => ?_) (.digits 0x2c [0x35] (by decide) fun b hb => ?_) (by simp) .absent)
    · rw [List.mem_singleton.mp hb]
      decide
    · rw [List.mem_singleton.mp hb]
      decide
  obtain ⟨number, hparse⟩ : ∃ number,
      parseNumber readsMinusTwoAndAHalf [0x20, 0x2d, 0x32, 0x2c, 0x35] false = some number :=
    ⟨_, rfl⟩
  have horder := (hexact _ _ hparse).2 _ hliteral
  refine ⟨number, hparse, ?_, ?_⟩
  · rw [horder (-2) (by norm_num) (by norm_num), LiteralValue.order_of_gt (by norm_num)]
  · rw [horder (-3) (by norm_num) (by norm_num), LiteralValue.order_of_lt (by norm_num)]

/-- `0xFFFFFFFFFFFFFFFF` is accepted and lies below 0, though its digits make `2 ^ 64 - 1`. -/
theorem hexadecimal_wraps :
    ¬ ∀ (digits : Bytes) (number : Number), digits ≠ [] → (∀ b ∈ digits, charDigit b < 16) →
      parseNumber readsMinusTwoAndAHalf (0x30 :: 0x78 :: digits) false = some number →
      ∀ c : ℤ, -2 ^ 63 ≤ c → c < 2 ^ 63 →
        number.integer.compare c =
          (LiteralValue.rational (readDigits 16 digits : ℕ)).order c := by
  intro hall
  have hdigits : ∀ b ∈ List.replicate 16 (0x46 : UInt8), charDigit b < 16 := by
    intro b hb
    rw [(List.mem_replicate.mp hb).2]
    decide
  have hread : readDigits 16 (List.replicate 16 0x46) = 2 ^ 64 - 1 := by decide
  have hzero := hall (List.replicate 16 0x46) _ (by simp) hdigits rfl 0 (by norm_num) (by norm_num)
  rw [hread, LiteralValue.order_of_lt (by norm_num)] at hzero
  exact absurd hzero (by decide)

end CheatEngine
