import CheatEngineLinux.Scanner.ScanNumber
import CheatEngineLinux.Scanner.ScanBufferPlain

/-!
# Integer literals in the width of their type

A scan casts the numbers of the search to the type it compares, and turns a negative amount
changed by into the opposite compare.  `checkIntegerRange` refuses what the cast would change.

* `IntegerMatch`: what a search for integers means, over the integers.

* **PROVED `narrow_literals_exact`**: on the accepted configurations of the one-, two- and
  four-byte types, first and next scan decide just that.
* **PROVED `amounts_mirror`**: increased by `-n` is decreased by `n` for every integer type; of
  the integer candidates of an all-type scan it misses those that decreased by exactly `n`.
-/

namespace CheatEngine

open RecordFile StridedScan

/-! ### The range of a type -/

namespace IntType

theorem leNat_scalarBytes_lt (t : IntType) (bytes : List UInt8) (order : ByteOrder) :
    leNat (scalarBytes t.size bytes order) < t.modulus := by
  have hlength : (scalarBytes t.size bytes order).length ≤ t.size := by
    rw [scalarBytes]
    split
    · rw [List.length_take]
      omega
    · rw [List.length_reverse, List.length_take]
      omega
  rw [modulus_eq]
  exact (leNat_lt _).trans_le (Nat.pow_le_pow_right (by omega) hlength)

theorem cast_sub_lt (t : IntType) (a b : ℤ) : t.cast a - t.cast b < t.modulus := by
  have hpos : (0 : ℤ) < t.modulus := by exact_mod_cast t.modulus_pos
  rw [cast, cast]
  split
  · have ha := Int.bmod_lt (x := a) t.modulus_pos
    have hb := Int.le_bmod (x := b) t.modulus_pos
    omega
  · have ha := Int.emod_lt_of_pos a hpos
    have hb := Int.emod_nonneg b hpos.ne'
    omega

theorem read_sub_lt (t : IntType) (a b : List UInt8) (order : ByteOrder) :
    t.read a order - t.read b order < t.modulus :=
  t.cast_sub_lt _ _

end IntType

/-! ### What the target's check leaves of an amount -/

section Config

variable {iconv : String → List UInt8 → Option (List UInt8)} {description : TargetDescription}
  {requested config : ScanConfig}

/-- The request in the target's format, with its texts encoded. -/
def formatted (description : TargetDescription) (requested : ScanConfig)
    (terms : List GroupedTerm) : ScanConfig :=
  { withTargetFormat description requested with groupedTerms := terms }

theorem targetScanConfig_steps (h : targetScanConfig iconv description requested = .ok config) :
    checkIntegerRange requested = .ok () ∧
      ∃ terms, encodeTerms iconv (withTargetFormat description requested).byteOrder
          requested.groupedTerms = .ok terms ∧
        flipNegativeAmount (formatted description requested terms) = .ok config := by
  simp only [targetScanConfig, bind_eq_ok] at h
  obtain ⟨⟨⟩, hrange, -, -, -, -, -, -, -, -, -, -, terms, hterms, flipped, hflip, -, -, h⟩ := h
  cases h
  exact ⟨hrange, terms, hterms, hflip⟩

theorem flipNegativeAmount_other (h : config.compareType ≠ .increasedBy)
    (h' : config.compareType ≠ .decreasedBy) : flipNegativeAmount config = .ok config := by
  unfold flipNegativeAmount
  rw [if_neg (by simp [h, h'])]

theorem flipNegativeAmount_nonneg (hvalue : config.valueType ≠ .float)
    (hvalue' : config.valueType ≠ .double) (h : 0 ≤ config.intValue) :
    flipNegativeAmount config = .ok config := by
  unfold flipNegativeAmount
  dsimp only
  split
  · rw [if_neg (by simp [hvalue, hvalue']), if_neg (by omega)]
  · rfl

theorem flipNegativeAmount_negative (hvalue : config.valueType ≠ .float)
    (hvalue' : config.valueType ≠ .double) (hall : config.valueType ≠ .all)
    (hcompare : config.compareType = .increasedBy ∨ config.compareType = .decreasedBy)
    (h : config.intValue < 0) (hmin : config.intValue ≠ -2 ^ 63) :
    flipNegativeAmount config = .ok { config with
      intValue := -config.intValue
      compareType := if config.compareType = .increasedBy then .decreasedBy else .increasedBy } := by
  have hfloat : ¬ (decide (config.valueType = .all) && decide (config.floatValue < 0)) = true := by
    simp [hall]
  unfold flipNegativeAmount
  dsimp only
  rw [if_pos (by simpa using hcompare), if_neg (by simp [hvalue, hvalue']), if_pos h, if_neg hmin,
    if_neg hfloat]

end Config

/-! ### Narrow types -/

/-- The integer type of the value types whose literals are checked. -/
def narrowType : ValueType → Option IntType
  | .byte => some .uint8
  | .int16 => some .int16
  | .int32 => some .int32
  | _ => none

/-- What a search for integers means: an exact value in the signed or the unsigned reading, an
order and a change in the type's own. -/
def IntegerMatch (t : IntType) (compare : ScanCompare) (v v2 : ℤ) (order : ByteOrder)
    (current old : List UInt8) : Prop :=
  match compare with
  | .exact => IntType.read ⟨t.size, true⟩ current order = v ∨
      IntType.read ⟨t.size, false⟩ current order = v
  | .greater => v < t.read current order
  | .less => t.read current order < v
  | .between => min v v2 ≤ t.read current order ∧ t.read current order ≤ max v v2
  | .increasedBy => t.read current order - t.read old order = v ∧ v ≠ 0
  | .decreasedBy => t.read old order - t.read current order = v ∧ v ≠ 0
  | _ => False

/-- The literal lies in the range that is checked. -/
def InRange (t : IntType) (compare : ScanCompare) (v : ℤ) : Prop :=
  match compare with
  | .exact => -(t.modulus / 2 : ℕ) ≤ v ∧ v < t.modulus
  | .greater | .less | .between => t.cast v = v
  | .increasedBy | .decreasedBy => -t.modulus < v ∧ v < t.modulus
  | _ => True

def ScanCompare.takesNumber : ScanCompare → Bool
  | .exact | .greater | .less | .between | .increasedBy | .decreasedBy => true
  | _ => false

section narrow

variable {t : IntType}

theorem checkIntegerRange_inRange {config : ScanConfig}
    (ht : narrowType config.valueType = some t) (h : checkIntegerRange config = .ok ()) :
    InRange t config.compareType config.intValue ∧
      (config.compareType = .between → InRange t .between config.intValue2) := by
  have hcheck : ∀ {low high : ℤ}, integerRange config = some (low, high) →
      (low ≤ config.intValue ∧ config.intValue ≤ high) ∧
        (config.compareType = .between → low ≤ config.intValue2 ∧ config.intValue2 ≤ high) := by
    intro low high hrange
    unfold checkIntegerRange at h
    simp only [hrange, bind_eq_ok] at h
    obtain ⟨⟨⟩, hfirst, hsecond⟩ := h
    constructor
    · by_contra hout
      rw [if_pos (by simp; omega)] at hfirst
      cases hfirst
    · intro hbetween
      rw [if_pos hbetween] at hsecond
      by_contra hout
      rw [if_pos (by simp; omega)] at hsecond
      cases hsecond
  cases hvalue : config.valueType <;> rw [hvalue] at ht <;> cases ht
  all_goals
    cases hcompare : config.compareType
  all_goals
    simp only [InRange, IntType.cast, IntType.modulus, IntType.uint8, IntType.int16,
      IntType.int32, reduceCtorEq, false_implies, and_true, true_implies] at *
  all_goals
    have := hcheck (by simp only [integerRange, hvalue, hcompare]; rfl)
    simp [Int.bmod_def, hcompare] at this ⊢
    omega

theorem narrowType_cases {valueType : ValueType} (ht : narrowType valueType = some t) :
    (valueType = .byte ∧ t = .uint8) ∨ (valueType = .int16 ∧ t = .int16) ∨
      (valueType = .int32 ∧ t = .int32) := by
  cases valueType <;> simp_all [narrowType]

theorem narrowType_modulus {valueType : ValueType} (ht : narrowType valueType = some t) :
    0 < t.size ∧ t.modulus ≤ 2 ^ 32 := by
  rcases narrowType_cases ht with ⟨-, rfl⟩ | ⟨-, rfl⟩ | ⟨-, rfl⟩
  · decide
  · decide
  · decide

theorem read_eq_cast_iff {v : ℤ} (hv : InRange t .exact v) (bytes : List UInt8)
    (order : ByteOrder) :
    t.read bytes order = t.cast v ↔ IntType.read ⟨t.size, true⟩ bytes order = v ∨
      IntType.read ⟨t.size, false⟩ bytes order = v := by
  obtain ⟨n, hn⟩ : ∃ n, n = leNat (scalarBytes t.size bytes order) := ⟨_, rfl⟩
  have hlt : n < t.modulus := hn ▸ t.leNat_scalarBytes_lt bytes order
  have hsigned : IntType.read ⟨t.size, true⟩ bytes order = (n : ℤ).bmod t.modulus := by rw [hn]; rfl
  have hunsigned : IntType.read ⟨t.size, false⟩ bytes order = (n : ℤ) % t.modulus := by rw [hn]; rfl
  have hread : t.read bytes order = t.cast n := by rw [hn]; rfl
  have hown : (n : ℤ) % t.modulus = n := Int.emod_eq_of_lt (by omega) (by exact_mod_cast hlt)
  obtain ⟨hlow, hhigh⟩ := hv
  rw [hsigned, hunsigned, hread, IntType.cast_eq_cast, hown]
  constructor
  · intro h
    by_cases hneg : v < 0
    · left
      have hwrap : v % t.modulus = v + t.modulus := by
        rw [← Int.add_emod_right, Int.emod_eq_of_lt (by omega) (by omega)]
      rw [Int.bmod_def, hown, if_neg (by omega)]
      omega
    · right
      rw [h, Int.emod_eq_of_lt (by omega) hhigh]
  · rintro (h | h)
    · rw [← h, Int.bmod_emod, hown]
    · rw [← h, hown]

theorem cmpBetween_iff (c v v2 : ℤ) : cmpBetween c v v2 = true ↔ min v v2 ≤ c ∧ c ≤ max v v2 := by
  unfold cmpBetween
  split
  · rename_i h
    rw [min_eq_left h, max_eq_right h]
    simp
  · rename_i h
    rw [min_eq_right (by omega), max_eq_left (by omega)]
    simp

theorem getCompare_cast {compare : ScanCompare} (hliteral : compare.literal = true) {v v2 : ℤ}
    (hv : InRange t compare v) (hv2 : compare = .between → InRange t .between v2)
    (order : ByteOrder) (bytes old : List UInt8) :
    getCompare compare (t.read bytes order) (t.cast v) (t.cast v2) = true ↔
      IntegerMatch t compare v v2 order bytes old := by
  cases compare with
  | exact =>
    rw [getCompare, beq_iff_eq]
    exact read_eq_cast_iff hv bytes order
  | greater =>
    have hv' : t.cast v = v := hv
    rw [getCompare, decide_eq_true_eq, hv']
    rfl
  | less =>
    have hv' : t.cast v = v := hv
    rw [getCompare, decide_eq_true_eq, hv']
    rfl
  | between =>
    have hv' : t.cast v = v := hv
    have hv2' : t.cast v2 = v2 := hv2 rfl
    rw [getCompare, cmpBetween_iff, hv', hv2']
    rfl
  | _ => cases hliteral

end narrow

/-! ### Amounts -/

section amount

variable {t : IntType} {config : ScanConfig}

theorem compareNextInteger_amount {increased : Bool}
    (hcompare : config.compareType = if increased then .increasedBy else .decreasedBy)
    (hlow : 0 ≤ config.intValue) (hhigh : config.intValue < 2 ^ 64) (a b : List UInt8)
    (order : ByteOrder) :
    compareNextInteger t config (t.read a order) (t.read b order) = true ↔
      (if increased then t.read a order - t.read b order else t.read b order - t.read a order) =
        config.intValue ∧ config.intValue ≠ 0 := by
  have hab := t.read_sub_lt a b order
  have hba := t.read_sub_lt b a order
  generalize t.read a order = x at *
  generalize t.read b order = y at *
  unfold compareNextInteger
  cases increased with
  | true =>
    simp only [hcompare, supportsPercentageCompare, if_true, Bool.and_false, Bool.false_eq_true,
      if_false, reduceCtorEq, decide_true, Bool.true_or]
    rw [if_neg (by simp; omega)]
    by_cases hle : x ≤ y
    · simp only [hle, decide_true, if_true, Bool.false_eq_true, false_iff]
      omega
    · rw [if_neg (by simpa using hle), beq_iff_eq, Int.emod_eq_of_lt (by omega) hab,
        Int.emod_eq_of_lt hlow hhigh]
      omega
  | false =>
    simp only [hcompare, supportsPercentageCompare, Bool.and_false, Bool.false_eq_true,
      if_false, reduceCtorEq, decide_true, decide_false, Bool.false_or, if_true]
    rw [if_neg (by simp; omega)]
    by_cases hle : y ≤ x
    · simp only [hle, decide_true, if_true, Bool.false_eq_true, false_iff]
      omega
    · rw [if_neg (by simpa using hle), beq_iff_eq, Int.emod_eq_of_lt (by omega) hba,
        Int.emod_eq_of_lt hlow hhigh]
      omega

end amount

/-! ### Accepted configurations -/

section accepted

variable {iconv : String → List UInt8 → Option (List UInt8)} {description : TargetDescription}
  {requested config : ScanConfig} {t : IntType}

theorem integer_valueType (ht : narrowType requested.valueType = some t) :
    requested.valueType ≠ .float ∧ requested.valueType ≠ .double ∧ requested.valueType ≠ .all := by
  rcases narrowType_cases ht with ⟨h, -⟩ | ⟨h, -⟩ | ⟨h, -⟩
  · simp [h]
  · simp [h]
  · simp [h]

theorem targetScanConfig_literal (h : targetScanConfig iconv description requested = .ok config)
    (hliteral : requested.compareType.literal = true) :
    config.compareType = requested.compareType ∧ config.intValue = requested.intValue ∧
      config.intValue2 = requested.intValue2 ∧ config.valueType = requested.valueType := by
  obtain ⟨-, terms, -, hflip⟩ := targetScanConfig_steps h
  have hinc : requested.compareType ≠ .increasedBy := by
    intro hc
    rw [hc] at hliteral
    cases hliteral
  have hdec : requested.compareType ≠ .decreasedBy := by
    intro hc
    rw [hc] at hliteral
    cases hliteral
  rw [@flipNegativeAmount_other (formatted description requested terms) hinc hdec] at hflip
  cases hflip
  exact ⟨rfl, rfl, rfl, rfl⟩

theorem targetScanConfig_amount (h : targetScanConfig iconv description requested = .ok config)
    (hvalue : requested.valueType ≠ .float) (hvalue' : requested.valueType ≠ .double)
    (hall : requested.valueType ≠ .all) {increased : Bool}
    (hcompare : requested.compareType = if increased then .increasedBy else .decreasedBy)
    (hmin : -2 ^ 63 < requested.intValue) :
    config.valueType = requested.valueType ∧
      ((config.compareType = requested.compareType ∧ config.intValue = requested.intValue ∧
          0 ≤ config.intValue) ∨
        (config.compareType = (if increased then .decreasedBy else .increasedBy) ∧
          config.intValue = -requested.intValue ∧ 0 < config.intValue)) := by
  obtain ⟨-, terms, -, hflip⟩ := targetScanConfig_steps h
  by_cases hneg : requested.intValue < 0
  · have hamount : requested.compareType = .increasedBy ∨ requested.compareType = .decreasedBy := by
      rw [hcompare]
      cases increased <;> simp
    rw [@flipNegativeAmount_negative (formatted description requested terms) hvalue hvalue' hall
      hamount hneg (show requested.intValue ≠ -2 ^ 63 by omega)] at hflip
    cases hflip
    refine ⟨rfl, Or.inr ⟨?_, rfl, show 0 < -requested.intValue by omega⟩⟩
    show (if requested.compareType = .increasedBy then ScanCompare.decreasedBy else .increasedBy) = _
    rw [hcompare]
    cases increased <;> rfl
  · rw [@flipNegativeAmount_nonneg (formatted description requested terms) hvalue hvalue'
      (show 0 ≤ requested.intValue by omega)] at hflip
    cases hflip
    exact ⟨rfl, Or.inl ⟨rfl, rfl, show 0 ≤ requested.intValue by omega⟩⟩

theorem nextScanCompare_narrow {σ : Type} (lua : FormulaEvaluator σ) (valueSize : ℕ)
    (current old first : List UInt8) (needles : Needles) (st : σ)
    (ht : narrowType config.valueType = some t) (hcompare : config.compareType ≠ .sameAsFirst) :
    (nextScanCompare iconv lua config valueSize current old first needles st).1 =
      compareNextInteger t config (t.read current config.byteOrder)
        (t.read old config.byteOrder) := by
  unfold nextScanCompare
  rw [if_neg hcompare]
  rcases narrowType_cases ht with ⟨h, rfl⟩ | ⟨h, rfl⟩ | ⟨h, rfl⟩
  · simp only [h]
  · simp only [h]
  · simp only [h]

theorem compareNextInteger_literal (hliteral : config.compareType.literal = true)
    (hplain : (config.percentageScan && supportsPercentageCompare config.compareType) = false)
    (current old : ℤ) :
    compareNextInteger t config current old =
      getCompare config.compareType current (t.cast config.intValue) (t.cast config.intValue2) := by
  unfold compareNextInteger
  rw [if_neg (by simp [hplain])]
  cases hcompare : config.compareType with
  | exact => rfl
  | greater => rfl
  | less => rfl
  | between => rfl
  | _ =>
    rw [hcompare] at hliteral
    cases hliteral

/-- The literals of the narrow types are compared as they are written: in a first scan at every
position, and in a next scan of every row. -/
theorem narrow_literals_exact
    (haccepted : targetScanConfig iconv description requested = .ok config)
    (ht : narrowType requested.valueType = some t) :
    (requested.compareType.literal = true → ∀ (mode : SimdMode) (buf : List UInt8) (off : ℕ),
      off ∈ scanIntegerTarget mode t buf config.alignment (t.cast config.intValue)
          (t.cast config.intValue2) config.compareType config.byteOrder ↔
        off ∈ strideOffsets (buf.length + 1 - t.size) (max 1 config.alignment) ∧
          IntegerMatch t requested.compareType requested.intValue requested.intValue2
            config.byteOrder (buf.drop off) []) ∧
    (requested.compareType.takesNumber = true →
      (config.percentageScan && supportsPercentageCompare config.compareType) = false →
      ∀ {σ : Type} (lua : FormulaEvaluator σ) (valueSize : ℕ) (current old first : List UInt8)
        (needles : Needles) (st : σ),
        (nextScanCompare iconv lua config valueSize current old first needles st).1 = true ↔
          IntegerMatch t requested.compareType requested.intValue requested.intValue2
            config.byteOrder current old) := by
  obtain ⟨hrange, hrange2⟩ :=
    checkIntegerRange_inRange ht (targetScanConfig_steps haccepted).1
  obtain ⟨hsize, hmodulus⟩ := narrowType_modulus ht
  obtain ⟨hfloat, hdouble, hall⟩ := integer_valueType ht
  constructor
  · intro hliteral mode buf off
    obtain ⟨hc, hv, hv2, -⟩ := targetScanConfig_literal haccepted hliteral
    rw [scanIntegerTarget_eq mode hsize _ (IntType.cast_cast t _), List.mem_filter, hc, hv, hv2,
      getCompare_cast hliteral hrange hrange2]
  · intro hnumber hplain σ lua valueSize current old first needles st
    have htype : config.valueType = requested.valueType := (targetScanConfig_ok haccepted).valueType
    -- an amount of either direction, and the sign it was requested with
    have hamount : ∀ increased : Bool,
        requested.compareType = (if increased then .increasedBy else .decreasedBy) →
        ((nextScanCompare iconv lua config valueSize current old first needles st).1 = true ↔
          (if increased then t.read current config.byteOrder - t.read old config.byteOrder
            else t.read old config.byteOrder - t.read current config.byteOrder) =
              requested.intValue ∧ requested.intValue ≠ 0) := by
      intro increased hcompare
      have hbounds : -(t.modulus : ℤ) < requested.intValue ∧ requested.intValue < t.modulus := by
        rw [hcompare] at hrange
        cases increased with
        | true => exact hrange
        | false => exact hrange
      obtain ⟨-, ⟨hc, hv, hpos⟩ | ⟨hc, hv, hpos⟩⟩ :=
        targetScanConfig_amount haccepted hfloat hdouble hall hcompare (by omega)
      · rw [hcompare] at hc
        rw [nextScanCompare_narrow lua valueSize current old first needles st (htype ▸ ht)
            (by rw [hc]; cases increased <;> simp),
          compareNextInteger_amount hc hpos (by omega), hv]
      · have hc' : config.compareType = if !increased then .increasedBy else .decreasedBy := by
          rw [hc]
          cases increased <;> rfl
        rw [nextScanCompare_narrow lua valueSize current old first needles st (htype ▸ ht)
            (by rw [hc]; cases increased <;> simp),
          compareNextInteger_amount hc' hpos.le (by omega)]
        cases increased with
        | true =>
          simp only [Bool.not_true, Bool.false_eq_true, if_false, if_true]
          omega
        | false =>
          simp only [Bool.not_false, Bool.false_eq_true, if_false, if_true]
          omega
    by_cases hliteral : requested.compareType.literal = true
    · obtain ⟨hc, hv, hv2, -⟩ := targetScanConfig_literal haccepted hliteral
      rw [nextScanCompare_narrow lua valueSize current old first needles st (htype ▸ ht)
          (by rw [hc]; rintro h; rw [h] at hliteral; cases hliteral),
        compareNextInteger_literal (hc ▸ hliteral) hplain, hc, hv, hv2,
        getCompare_cast hliteral hrange hrange2]
    · cases hcompare : requested.compareType with
      | increasedBy => exact hamount true hcompare
      | decreasedBy => exact hamount false hcompare
      | _ =>
        rw [hcompare] at hliteral hnumber
        first
          | exact absurd rfl hliteral
          | cases hnumber

end accepted

def withoutFormula : FormulaEvaluator Unit := ⟨(), fun _ _ _ _ => (none, ())⟩

/-- A two-byte value that increased by -5, in big-endian memory. -/
def increasedByMinusFive : ScanConfig :=
  { valueType := .int16, byteOrder := .big, compareType := .increasedBy, intValue := -5 }

theorem two_bytes_increased_by_minus_five :
    ∃ config, targetScanConfig (fun _ _ => none) {} increasedByMinusFive = .ok config ∧
      (nextScanCompare (fun _ _ => none) withoutFormula config 2 [0xFF, 0xFE] [0x00, 0x03] [] {} ()).1 =
        true := by
  obtain ⟨config, haccepted⟩ :
      ∃ config, targetScanConfig (fun _ _ => none) {} increasedByMinusFive = .ok config := ⟨_, rfl⟩
  have horder : config.byteOrder = .big := by
    cases haccepted
    rfl
  have hplain : (config.percentageScan && supportsPercentageCompare config.compareType) = false := by
    cases haccepted
    rfl
  refine ⟨config, haccepted, ?_⟩
  rw [(narrow_literals_exact haccepted (t := .int16) rfl).2 rfl hplain, horder]
  exact ⟨by decide, by decide⟩

/-- An amount of 0 is accepted and matches no row, also where nothing changed. -/
theorem unchanged_byte_not_increased_by_zero :
    ∃ config, targetScanConfig (fun _ _ => none) {}
        { valueType := .byte, compareType := .increasedBy, intValue := 0 } = .ok config ∧
      IntType.uint8.read [5] config.byteOrder - IntType.uint8.read [5] config.byteOrder = 0 ∧
      (nextScanCompare (fun _ _ => none) withoutFormula config 1 [5] [5] [] {} ()).1 = false :=
  ⟨_, rfl, by decide, by decide⟩

/-! ### Candidates of a mask -/

theorem candidateMask_eq (test : ScalarType → ℕ → Bool) : candidateMask test =
    (if test (.int .uint8) 0 then 1 else 0) ||| (if test (.int .int16) 1 then 2 else 0)
      ||| (if test (.int .int32) 2 then 4 else 0) ||| (if test (.int .int64) 3 then 8 else 0)
      ||| (if test .float 4 then 16 else 0) ||| (if test .double 5 then 32 else 0) := by
  have hstep : ∀ (c : Bool) (m b : UInt8), (if c then m ||| b else m) = m ||| (if c then b else 0) := by
    intro c m b
    cases c <;> simp
  simp only [candidateMask, allCandidateTypes, List.zipIdx_cons, List.zipIdx_nil, List.foldl_cons,
    List.foldl_nil, hstep]
  simp

theorem hasCandidate_candidateMask (test : ScalarType → ℕ → Bool) {bit : ℕ} {type : ScalarType}
    (h : allCandidateTypes[bit]? = some type) :
    hasCandidate (candidateMask test) bit = test type bit := by
  have hbits : ∀ b0 b1 b2 b3 b4 b5 : Bool,
      let mask : UInt8 := (if b0 then 1 else 0) ||| (if b1 then 2 else 0) ||| (if b2 then 4 else 0)
        ||| (if b3 then 8 else 0) ||| (if b4 then 16 else 0) ||| (if b5 then 32 else 0)
      hasCandidate mask 0 = b0 ∧ hasCandidate mask 1 = b1 ∧ hasCandidate mask 2 = b2 ∧
        hasCandidate mask 3 = b3 ∧ hasCandidate mask 4 = b4 ∧ hasCandidate mask 5 = b5 := by
    decide
  have hall := hbits (test (.int .uint8) 0) (test (.int .int16) 1) (test (.int .int32) 2)
    (test (.int .int64) 3) (test .float 4) (test .double 5)
  rw [← candidateMask_eq test] at hall
  obtain ⟨h0, h1, h2, h3, h4, h5⟩ := hall
  match bit, h with
  | 0, h => cases h; exact h0
  | 1, h => cases h; exact h1
  | 2, h => cases h; exact h2
  | 3, h => cases h; exact h3
  | 4, h => cases h; exact h4
  | 5, h => cases h; exact h5
  | n + 6, h => simp [allCandidateTypes] at h

/-! ### Amounts of an all-type scan -/

section all

variable {config : ScanConfig} {value : AllIntegerValue} {q : ℚ}

theorem compareNextAllInteger_amount (hvalue : config.allIntegerValue = some value)
    (hstands : value.Stands q) {increased : Bool}
    (hcompare : config.compareType = if increased then .increasedBy else .decreasedBy)
    {current old : ℤ} (hup : current - old < 2 ^ 64) (hdown : old - current < 2 ^ 64) :
    compareNextAllInteger config current old = true ↔
      ((if increased then current - old else old - current : ℤ) : ℚ) = q ∧ 0 < q := by
  obtain ⟨d, hd⟩ : ∃ d, d = if increased then current - old else old - current := ⟨_, rfl⟩
  have hlt : d < 2 ^ 64 := by
    rw [hd]
    cases increased
    · exact hdown
    · exact hup
  have hguard : (if increased then decide (current ≤ old) else decide (old ≤ current)) =
      decide (d ≤ 0) := by
    rw [hd]
    cases increased <;> simp
  have heval : compareNextAllInteger config current old =
      (!(value.negative || value.fractional || value.outsideMagnitude || value.unordered) &&
        (!decide (d ≤ 0) && (d % 2 ^ 64 == value.magnitude.toNat))) := by
    have hif : ∀ c x : Bool, (if c = true then false else x) = (!c && x) := by decide
    rw [← hguard, hd]
    unfold compareNextAllInteger
    cases increased with
    | true =>
      simp only [hvalue, hcompare, supportsPercentageCompare, Bool.and_false,
        if_true, reduceCtorEq, decide_true, Bool.true_or, Bool.not_true, Bool.or_self,
        Bool.false_eq_true, if_false, hif]
    | false =>
      simp only [hvalue, hcompare, supportsPercentageCompare, Bool.and_false,
        reduceCtorEq, decide_true, decide_false, Bool.or_true, Bool.not_true, Bool.or_self,
        Bool.false_eq_true, if_false, if_true, hif]
  rw [heval, ← hd]
  simp only [Bool.and_eq_true, Bool.not_eq_true', Bool.or_eq_false_iff, decide_eq_false_iff_not,
    beq_iff_eq, hstands.negative, hstands.ordered, not_lt, not_le]
  constructor
  · rintro ⟨⟨⟨⟨hneg, hfrac⟩, hout⟩, -⟩, hpos, heq⟩
    obtain ⟨-, -, hpart⟩ := hstands.inside hout
    have hmagnitude : (value.magnitude.toNat : ℚ) = |q| := by
      by_contra hne
      rw [hpart.mpr hne] at hfrac
      cases hfrac
    rw [abs_of_nonneg hneg] at hmagnitude
    rw [Int.emod_eq_of_lt (by omega) hlt] at heq
    have hcast : (d : ℚ) = q := by
      rw [heq, ← hmagnitude]
      simp
    refine ⟨hcast, ?_⟩
    rw [← hcast]
    exact_mod_cast hpos
  · rintro ⟨heq, hpos⟩
    have hdpos : 0 < d := by
      rw [← heq] at hpos
      exact_mod_cast hpos
    have habs : |q| = d := by rw [abs_of_pos hpos, heq]
    have hout : value.outsideMagnitude = false := by
      by_contra hout
      have hbig := hstands.outside (by simpa using hout)
      rw [habs] at hbig
      have : (2 ^ 64 : ℤ) ≤ d := by exact_mod_cast hbig
      omega
    obtain ⟨hle, hlt', hpart⟩ := hstands.inside hout
    rw [habs] at hle hlt' hpart
    have hmagnitude : (value.magnitude.toNat : ℤ) = d := by
      have h1 : (value.magnitude.toNat : ℤ) ≤ d := by exact_mod_cast hle
      have h2 : d < value.magnitude.toNat + 1 := by exact_mod_cast hlt'
      omega
    have hfrac : value.fractional = false := by
      by_contra hfrac
      exact hpart.mp (by simpa using hfrac) (by exact_mod_cast hmagnitude)
    refine ⟨⟨⟨⟨hpos.le, hfrac⟩, hout⟩, trivial⟩, hdpos, ?_⟩
    rw [Int.emod_eq_of_lt hdpos.le hlt, hmagnitude]

theorem integerHint_nonneg (h : value.negative = false) : 0 ≤ integerHint value := by
  unfold integerHint
  rw [h, if_neg Bool.false_ne_true, if_neg Bool.false_ne_true]
  split
  · exact Int.le_refl 0
  · rename_i hfits
    simp only [Bool.or_eq_true, decide_eq_true_eq, not_or, UInt64.not_lt] at hfits
    have hle := UInt64.le_iff_toNat_le.mp hfits.2
    have hmax : (0x7FFFFFFFFFFFFFFF : UInt64).toNat = 2 ^ 63 - 1 := rfl
    rw [toInt_toInt64, signed64, Int.bmod_def]
    omega

theorem parseAllValues_amount {fromChars : FromChars} {requested parsed : ScanConfig}
    {text : List UInt8} {hex increased : Bool}
    (hcompare : requested.compareType = if increased then .increasedBy else .decreasedBy)
    (h : ScanConfig.parseAllValues fromChars requested text [] hex = some parsed) :
    ∃ number, parseNumber fromChars text hex = some number ∧
      parsed.allIntegerValue = some number.integer ∧
      parsed.intValue = integerHint number.integer ∧ parsed.compareType = requested.compareType ∧
      parsed.valueType = requested.valueType ∧ parsed.byteOrder = requested.byteOrder := by
  have hneeds : needsLiteral requested = true := by
    unfold needsLiteral
    rw [hcompare]
    cases increased <;> simp [supportsPercentageCompare]
  have hbetween : requested.compareType ≠ .between := by
    rw [hcompare]
    cases increased <;> simp
  unfold ScanConfig.parseAllValues at h
  simp only [hneeds, Bool.not_true, Bool.false_eq_true, if_false, hbetween] at h
  split at h
  · cases h
  · rename_i number hnumber
    cases h
    exact ⟨number, hnumber, rfl, rfl, rfl, rfl, rfl⟩

theorem targetScanConfig_all {iconv : String → List UInt8 → Option (List UInt8)}
    {description : TargetDescription} {requested config : ScanConfig}
    (h : targetScanConfig iconv description requested = .ok config)
    (hvalue : requested.valueType = .all) (increased : Bool)
    (hcompare : requested.compareType = if increased then .increasedBy else .decreasedBy) :
    config.allIntegerValue = requested.allIntegerValue ∧
      config.byteOrder = (withTargetFormat description requested).byteOrder ∧
      (∃ direction : Bool,
        config.compareType = if direction then .increasedBy else .decreasedBy) ∧
      (0 ≤ requested.intValue → config.compareType = requested.compareType) := by
  obtain ⟨-, terms, -, hflip⟩ := targetScanConfig_steps h
  have hkind : (formatted description requested terms).valueType = .all := hvalue
  have hcompare' : (formatted description requested terms).compareType =
      if increased then .increasedBy else .decreasedBy := hcompare
  unfold flipNegativeAmount at hflip
  dsimp only at hflip
  rw [if_pos (by rw [hcompare']; cases increased <;> simp), if_neg (by simp [hkind])] at hflip
  split at hflip
  · rename_i hneg
    split at hflip
    · cases hflip
    · cases hflip
      refine ⟨rfl, rfl, ⟨!increased, ?_⟩, fun hpos => ?_⟩
      · simp only [hcompare']
        cases increased <;> rfl
      · have hneg' : requested.intValue < 0 := hneg
        omega
  · cases hflip
    exact ⟨rfl, rfl, ⟨increased, hcompare⟩, fun _ => rfl⟩

theorem nextAllCandidate_amount {increased : Bool} {t : IntType}
    (hcompare : config.compareType = if increased then .increasedBy else .decreasedBy)
    {bit : ℕ} (hbit : allCandidateTypes[bit]? = some (.int t)) (mask : UInt8)
    (current old first : List UInt8) :
    hasCandidate (nextAllTypeCandidates config mask current old first) bit =
      (hasCandidate mask bit && compareNextAllInteger config (t.read current config.byteOrder)
        (t.read old config.byteOrder)) := by
  have hexact : config.compareType ≠ .exact := by
    rw [hcompare]
    cases increased <;> simp
  have hfirst : config.compareType ≠ .sameAsFirst := by
    rw [hcompare]
    cases increased <;> simp
  have hunsigned : ∀ n, matchesUnsigned64 config n = false := by
    intro n
    unfold matchesUnsigned64
    split
    · rfl
    · simp [hexact]
  rw [nextAllTypeCandidates, hasCandidate_candidateMask _ hbit]
  simp only [hfirst, if_false, nextAllCandidateMatches, hexact, decide_false, Bool.false_and,
    Bool.or_false, hunsigned, Bool.and_false]

end all

/-! ### Both directions -/

section mirror

variable {iconv : String → List UInt8 → Option (List UInt8)} {description : TargetDescription}
  {base up down : ScanConfig}

def integerType : ValueType → Bool
  | .byte | .int16 | .int32 | .int64 | .pointer => true
  | _ => false

theorem nextScanCompare_integer {config : ScanConfig} (h : integerType config.valueType = true)
    (hcompare : config.compareType ≠ .sameAsFirst) :
    ∃ t : IntType, ∀ {σ : Type} (lua : FormulaEvaluator σ) (valueSize : ℕ)
      (current old first : List UInt8) (needles : Needles) (st : σ),
      (nextScanCompare iconv lua config valueSize current old first needles st).1 =
        compareNextInteger t config (t.read current config.byteOrder)
          (t.read old config.byteOrder) := by
  unfold nextScanCompare
  simp only [if_neg hcompare]
  cases hvalue : config.valueType with
  | byte => exact ⟨_, fun _ _ _ _ _ _ _ => rfl⟩
  | int16 => exact ⟨_, fun _ _ _ _ _ _ _ => rfl⟩
  | int32 => exact ⟨_, fun _ _ _ _ _ _ _ => rfl⟩
  | int64 => exact ⟨_, fun _ _ _ _ _ _ _ => rfl⟩
  | pointer => exact ⟨_, fun _ _ _ _ _ _ _ => rfl⟩
  | _ =>
    rw [hvalue] at h
    cases h

/-- An amount of 0 matches nothing. -/
theorem nextScanCompare_zero {config : ScanConfig} (h : integerType config.valueType = true)
    {increased : Bool}
    (hcompare : config.compareType = if increased then .increasedBy else .decreasedBy)
    (hzero : config.intValue = 0) {σ : Type} (lua : FormulaEvaluator σ) (valueSize : ℕ)
    (current old first : List UInt8) (needles : Needles) (st : σ) :
    (nextScanCompare iconv lua config valueSize current old first needles st).1 = false := by
  obtain ⟨t, ht⟩ := @nextScanCompare_integer iconv config h
    (by rw [hcompare]; cases increased <;> simp)
  rw [ht, Bool.eq_false_iff, ne_eq,
    compareNextInteger_amount hcompare (by omega) (by omega)]
  exact fun hmatch => hmatch.2 hzero

/-- Increased by `-n` and decreased by `n` are one configuration, or both match nothing. -/
theorem integer_amounts_mirror (hvalue : integerType base.valueType = true) {n : ℤ} (hlow : 0 ≤ n)
    (hhigh : n < 2 ^ 63)
    (hup : targetScanConfig iconv description
      { base with compareType := .increasedBy, intValue := -n } = .ok up)
    (hdown : targetScanConfig iconv description
      { base with compareType := .decreasedBy, intValue := n } = .ok down)
    {σ : Type} (lua : FormulaEvaluator σ) (valueSize : ℕ) (current old first : List UInt8)
    (needles : Needles) (st : σ) :
    (nextScanCompare iconv lua up valueSize current old first needles st).1 =
      (nextScanCompare iconv lua down valueSize current old first needles st).1 := by
  obtain ⟨-, terms, hterms, hflip⟩ := targetScanConfig_steps hup
  obtain ⟨-, terms', hterms', hflip'⟩ := targetScanConfig_steps hdown
  have hsame : terms = terms' := Except.ok.inj (hterms.symm.trans hterms')
  subst hsame
  have hkinds : base.valueType ≠ .float ∧ base.valueType ≠ .double ∧ base.valueType ≠ .all := by
    refine ⟨?_, ?_, ?_⟩
    all_goals
      intro hc
      rw [hc] at hvalue
      cases hvalue
  rw [@flipNegativeAmount_nonneg (formatted description
    { base with compareType := .decreasedBy, intValue := n } terms) hkinds.1 hkinds.2.1 hlow] at hflip'
  cases hflip'
  by_cases hzero : n = 0
  · subst hzero
    rw [@flipNegativeAmount_nonneg (formatted description
      { base with compareType := .increasedBy, intValue := -0 } terms) hkinds.1 hkinds.2.1
      (show (0 : ℤ) ≤ -0 by omega)] at hflip
    cases hflip
    have hnone := @nextScanCompare_zero iconv (formatted description
      { base with compareType := .increasedBy, intValue := -0 } terms) hvalue true rfl rfl
    have hnone' := @nextScanCompare_zero iconv (formatted description
      { base with compareType := .decreasedBy, intValue := 0 } terms) hvalue false rfl rfl
    rw [hnone, hnone']
  · rw [@flipNegativeAmount_negative (formatted description
      { base with compareType := .increasedBy, intValue := -n } terms) hkinds.1 hkinds.2.1 hkinds.2.2
      (Or.inl rfl) (show -n < 0 by omega) (show -n ≠ -2 ^ 63 by omega)] at hflip
    cases hflip
    have hneg : - -n = n := by omega
    simp only [formatted, withTargetFormat, hneg, if_true]

/-- For the integer types, increased by `-n` is decreased by `n`.  Of the integer candidates of an
all-type scan, increased by `-n` keeps none, so the two agree except where a candidate of the row
decreased by exactly `n` and `n` is not 0. -/
theorem amounts_mirror {fromChars : FromChars} (hgrammar : StandardGrammar fromChars) :
    (integerType base.valueType = true → ∀ n : ℤ, 0 ≤ n → n < 2 ^ 63 → ∀ up down,
      targetScanConfig iconv description
        { base with compareType := .increasedBy, intValue := -n } = .ok up →
      targetScanConfig iconv description
        { base with compareType := .decreasedBy, intValue := n } = .ok down →
      ∀ {σ : Type} (lua : FormulaEvaluator σ) (valueSize : ℕ) (current old first : List UInt8)
        (needles : Needles) (st : σ),
        (nextScanCompare iconv lua up valueSize current old first needles st).1 =
          (nextScanCompare iconv lua down valueSize current old first needles st).1) ∧
    (base.valueType = .all → ∀ (q : ℚ) (hex hex' : Bool) (text minus : List UInt8), 0 ≤ q →
      Literal hex text (.rational q) → Literal hex' minus (.rational (-q)) →
      ∀ upParsed downParsed up down,
      ScanConfig.parseAllValues fromChars { base with compareType := .increasedBy } minus [] hex' =
        some upParsed →
      ScanConfig.parseAllValues fromChars { base with compareType := .decreasedBy } text [] hex =
        some downParsed →
      targetScanConfig iconv description upParsed = .ok up →
      targetScanConfig iconv description downParsed = .ok down →
      ∀ (bit : ℕ) (t : IntType), allCandidateTypes[bit]? = some (.int t) →
      ∀ (mask : UInt8) (current old first : List UInt8),
        (hasCandidate (nextAllTypeCandidates up mask current old first) bit =
            hasCandidate (nextAllTypeCandidates down mask current old first) bit ↔
          hasCandidate mask bit = false ∨ q = 0 ∨
            ((t.read old down.byteOrder - t.read current down.byteOrder : ℤ) : ℚ) ≠ q)) := by
  constructor
  · intro hvalue n hlow hhigh up down hup hdown σ lua valueSize current old first needles st
    exact integer_amounts_mirror hvalue hlow hhigh hup hdown lua valueSize current old first
      needles st
  · intro hvalue q hex hex' text minus hq htext hminus upParsed downParsed up down hparseUp
      hparseDown hup hdown bit t hbit mask current old first
    obtain ⟨numberUp, hnumberUp, hvalueUp, -, hcompareUp, hkindUp, -⟩ :=
      @parseAllValues_amount fromChars { base with compareType := .increasedBy } _ _ _ true rfl
        hparseUp
    obtain ⟨numberDown, hnumberDown, hvalueDown, hhintDown, hcompareDown, hkindDown, -⟩ :=
      @parseAllValues_amount fromChars { base with compareType := .decreasedBy } _ _ _ false rfl
        hparseDown
    have hstandsUp : numberUp.integer.Stands (-q) :=
      parseNumber_describes hgrammar hnumberUp hminus
    have hstandsDown : numberDown.integer.Stands q :=
      parseNumber_describes hgrammar hnumberDown htext
    obtain ⟨hlitUp, -, ⟨direction, hdirection⟩, -⟩ :=
      targetScanConfig_all hup (hkindUp.trans hvalue) true hcompareUp
    obtain ⟨hlitDown, -, -, hkeep⟩ :=
      targetScanConfig_all hdown (hkindDown.trans hvalue) false hcompareDown
    have hnegDown : numberDown.integer.negative = false := by
      rw [hstandsDown.negative]
      exact decide_eq_false (not_lt.mpr hq)
    have hcompare : down.compareType = if false then .increasedBy else .decreasedBy := by
      rw [hkeep (by rw [hhintDown]; exact integerHint_nonneg hnegDown), hcompareDown]
      rfl
    have hwidth : (t.modulus : ℤ) ≤ 2 ^ 64 := by
      match bit, hbit with
      | 0, h => cases h; decide
      | 1, h => cases h; decide
      | 2, h => cases h; decide
      | 3, h => cases h; decide
      | 4, h => cases h
      | 5, h => cases h
      | n + 6, h => simp [allCandidateTypes] at h
    have hdistance : ∀ (a b : List UInt8) (o : ByteOrder), t.read a o - t.read b o < 2 ^ 64 :=
      fun a b o => (t.read_sub_lt a b o).trans_le hwidth
    -- with a literal that is not positive nothing is kept, whichever direction is compared
    have hnone : compareNextAllInteger up (t.read current up.byteOrder) (t.read old up.byteOrder) =
        false := by
      rw [Bool.eq_false_iff, ne_eq, compareNextAllInteger_amount (hlitUp.trans hvalueUp) hstandsUp
        hdirection (hdistance _ _ _) (hdistance _ _ _)]
      rintro ⟨-, hpos⟩
      linarith
    have hsome := compareNextAllInteger_amount (hlitDown.trans hvalueDown) hstandsDown hcompare
      (hdistance current old down.byteOrder) (hdistance old current down.byteOrder)
    rw [nextAllCandidate_amount hdirection hbit, nextAllCandidate_amount hcompare hbit, hnone,
      Bool.and_false]
    cases hasCandidate mask bit with
    | false => simp
    | true =>
      rw [Bool.true_and, eq_comm, Bool.eq_false_iff, ne_eq, hsome]
      simp only [Bool.false_eq_true, if_false, Bool.true_eq_false, false_or]
      constructor
      · intro hnot
        by_cases hzero : q = 0
        · exact Or.inl hzero
        · exact Or.inr fun heq => hnot ⟨heq, lt_of_le_of_ne hq (Ne.symm hzero)⟩
      · rintro (hzero | hne) ⟨heq, hpos⟩
        · exact hpos.ne' hzero
        · exact hne heq

end mirror

/-- `0x5`. -/
def fiveText : List UInt8 := [0x30, 0x78, 0x35]

/-- `-0x5`. -/
def minusFiveText : List UInt8 := 0x2d :: fiveText

theorem literal_five : Literal false fiveText (.rational 5) ∧
    Literal false minusFiveText (.rational (-5)) := by
  have hdigit : ∀ b ∈ ([0x35] : List UInt8), CtFile.charDigit b < 16 := by
    intro b hb
    rw [List.mem_singleton.mp hb]
    decide
  have hfive : (5 : ℚ) = (signed64 (CtFile.readDigits 16 [0x35]) : ℤ) := by
    rw [show signed64 (CtFile.readDigits 16 [0x35]) = 5 by decide]
    norm_num
  have hminus : (-5 : ℚ) = (signed64 (-(CtFile.readDigits 16 [0x35] : ℤ)) : ℤ) := by
    rw [show signed64 (-(CtFile.readDigits 16 [0x35] : ℤ)) = -5 by decide]
    norm_num
  constructor
  · rw [hfive]
    exact ⟨[], [], fiveText, [], by simp, by simp, by simp,
      .marked false false 0x78 [0x35] (Or.inl rfl) (by simp) hdigit, rfl⟩
  · rw [hminus]
    exact ⟨[], [0x2d], fiveText, [], by simp, by simp, by simp,
      .marked false true 0x78 [0x35] (Or.inl rfl) (by simp) hdigit, rfl⟩

/-- A byte that went from 10 to 5 increased by -5, and a byte candidate that went from 10 to 4 is
kept neither way. -/
theorem ten_to_five_and_four :
    (∃ up, targetScanConfig (fun _ _ => none) {}
        { valueType := .byte, compareType := .increasedBy, intValue := -5 } = .ok up ∧
      (nextScanCompare (fun _ _ => none) withoutFormula up 1 [5] [10] [] {} ()).1 = true) ∧
    (∃ upParsed downParsed up down,
      ScanConfig.parseAllValues readsMinusTwoAndAHalf
        { valueType := .all, compareType := .increasedBy } minusFiveText [] false = some upParsed ∧
      ScanConfig.parseAllValues readsMinusTwoAndAHalf
        { valueType := .all, compareType := .decreasedBy } fiveText [] false = some downParsed ∧
      targetScanConfig (fun _ _ => none) {} upParsed = .ok up ∧
      targetScanConfig (fun _ _ => none) {} downParsed = .ok down ∧
      hasCandidate (nextAllTypeCandidates up 1 [4] [10] []) 0 =
        hasCandidate (nextAllTypeCandidates down 1 [4] [10] []) 0) := by
  constructor
  · obtain ⟨hmirror, -⟩ := @amounts_mirror (fun _ _ => none) {} { valueType := .byte } _
      readsMinusTwoAndAHalf_standard
    exact ⟨_, rfl, (hmirror rfl 5 (by decide) (by decide) _ _ rfl rfl withoutFormula 1 [5] [10] []
      {} ()).trans (by decide)⟩
  · obtain ⟨-, hall⟩ := @amounts_mirror (fun _ _ => none) {} { valueType := .all } _
      readsMinusTwoAndAHalf_standard
    obtain ⟨upParsed, hup⟩ : ∃ parsed, ScanConfig.parseAllValues readsMinusTwoAndAHalf
        { valueType := .all, compareType := .increasedBy } minusFiveText [] false = some parsed :=
      ⟨_, rfl⟩
    obtain ⟨downParsed, hdown⟩ : ∃ parsed, ScanConfig.parseAllValues readsMinusTwoAndAHalf
        { valueType := .all, compareType := .decreasedBy } fiveText [] false = some parsed :=
      ⟨_, rfl⟩
    obtain ⟨up, hup'⟩ : ∃ up, targetScanConfig (fun _ _ => none) {} upParsed = .ok up := by
      cases hup
      exact ⟨_, rfl⟩
    obtain ⟨down, hdown'⟩ : ∃ down, targetScanConfig (fun _ _ => none) {} downParsed = .ok down := by
      cases hdown
      exact ⟨_, rfl⟩
    refine ⟨upParsed, downParsed, up, down, hup, hdown, hup', hdown', ?_⟩
    refine (hall rfl 5 false false fiveText minusFiveText (by norm_num) literal_five.1
      literal_five.2 upParsed downParsed up down hup hdown hup' hdown' 0 .uint8 rfl 1 [4] [10]
      []).mpr (Or.inr (Or.inr ?_))
    have horder : down.byteOrder = .little := by
      cases hdown
      cases hdown'
      rfl
    rw [horder, show IntType.uint8.read [10] .little - IntType.uint8.read [4] .little = 6 by decide]
    norm_num

/-- A byte candidate that went from 10 to 5 is kept as decreased by 5 and lost as increased by
-5. -/
theorem decrease_lost_by_negative_increase :
    ∃ upParsed downParsed up down,
      ScanConfig.parseAllValues readsMinusTwoAndAHalf
        { valueType := .all, compareType := .increasedBy } minusFiveText [] false = some upParsed ∧
      ScanConfig.parseAllValues readsMinusTwoAndAHalf
        { valueType := .all, compareType := .decreasedBy } fiveText [] false = some downParsed ∧
      targetScanConfig (fun _ _ => none) {} upParsed = .ok up ∧
      targetScanConfig (fun _ _ => none) {} downParsed = .ok down ∧
      hasCandidate (nextAllTypeCandidates up 1 [5] [10] []) 0 = false ∧
      hasCandidate (nextAllTypeCandidates down 1 [5] [10] []) 0 = true :=
  ⟨_, _, _, _, rfl, rfl, rfl, rfl, by decide, by decide⟩

end CheatEngine
