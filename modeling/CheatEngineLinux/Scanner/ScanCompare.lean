import CheatEngineLinux.Scanner.ScanConfig

/-!
# The comparisons of a scan

Integers are read as mathematical integers of an `IntType`, `float` and `double` as Lean's
`Float32` and `Float`.  A pointer into a buffer is the list of bytes from there on.

* `readScanScalar` — a scalar in the target's byte order;
* `compareFloatingExact`, `comparePercentage`, `getCompare` — the single comparisons;
* `compareNextInteger`, `compareNextFloating` — a value against an earlier one;
* `allCandidateMatches`, `nextAllTypeCandidates` — the comparisons of an all-type scan;
* `groupedBlockMatches`, `stringBytesMatch`, `compareMaskedBytes` — bytes;
* `nextScanCompare` — the predicate of a next scan.
-/

namespace CheatEngine

open RecordFile

def nativeScanByteOrder : ByteOrder := .little

def scalarBytes (size : ℕ) (bytes : List UInt8) (order : ByteOrder) : List UInt8 :=
  if order = nativeScanByteOrder then bytes.take size else (bytes.take size).reverse

/-! ### Integers -/

structure IntType where
  size : ℕ
  signed : Bool
  deriving Repr, DecidableEq

namespace IntType

def uint8 : IntType := ⟨1, false⟩
def int16 : IntType := ⟨2, true⟩
def int32 : IntType := ⟨4, true⟩
def int64 : IntType := ⟨8, true⟩
def uint32 : IntType := ⟨4, false⟩
def uint64 : IntType := ⟨8, false⟩

def modulus (t : IntType) : ℕ := 2 ^ (8 * t.size)

/-- `static_cast` to the type. -/
def cast (t : IntType) (v : ℤ) : ℤ :=
  if t.signed then v.bmod t.modulus else v % t.modulus

/-- `readScanScalar`. -/
def read (t : IntType) (bytes : List UInt8) (order : ByteOrder) : ℤ :=
  t.cast (leNat (scalarBytes t.size bytes order))

/-- `swapScanScalar`. -/
def swap (t : IntType) (v : ℤ) : ℤ :=
  t.cast (leNat (leBytes t.size (v % t.modulus).toNat).reverse)

def otherSignedness (t : IntType) (v : ℤ) : ℤ := cast { t with signed := !t.signed } v

end IntType

/-! ### Floating point -/

/-- What the comparisons ask of `float` and `double`. -/
class ScanFloat (T : Type) extends BEq T, LT T, LE T, Add T, Sub T where
  ltDec : DecidableLT T
  leDec : DecidableLE T
  size : ℕ
  ofBits : ℕ → T
  toBits : T → ℕ
  toDouble : T → Float
  ofDouble : Float → T
  /-- `std::numeric_limits<T>::max()`. -/
  maxValue : Float
  /-- `std::numeric_limits<T>::epsilon()`. -/
  epsilon : Float

attribute [reducible, instance] ScanFloat.ltDec ScanFloat.leDec

instance : ScanFloat Float where
  ltDec := inferInstance
  leDec := inferInstance
  size := 8
  ofBits n := Float.ofBits (UInt64.ofNat n)
  toBits x := x.toBits.toNat
  toDouble x := x
  ofDouble x := x
  maxValue := Float.ofBits 0x7FEFFFFFFFFFFFFF
  epsilon := Float.ofBits 0x3CB0000000000000

instance : ScanFloat Float32 where
  ltDec := inferInstance
  leDec := inferInstance
  size := 4
  ofBits n := Float32.ofBits (UInt32.ofNat n)
  toBits x := x.toBits.toNat
  toDouble := Float32.toFloat
  ofDouble := Float.toFloat32
  maxValue := Float.ofBits 0x47EFFFFFE0000000
  epsilon := Float.ofBits 0x3E80000000000000

/-- `std::max` on doubles: the first where they do not compare. -/
def stdMax (a b : Float) : Float := if a < b then b else a

/-- `std::min` on doubles. -/
def stdMin (a b : Float) : Float := if b < a then b else a

/-- `std::trunc`. -/
def stdTrunc (x : Float) : Float := if x < 0 then x.ceil else x.floor

/-! ### Single comparisons -/

section Compare

variable {T : Type} [BEq T] [LT T] [DecidableLT T] [LE T] [DecidableLE T]

/-- Bounds in either order. -/
def cmpBetween (c v v2 : T) : Bool :=
  if v ≤ v2 then decide (v ≤ c) && decide (c ≤ v2) else decide (v2 ≤ c) && decide (c ≤ v)

def getCompare (compare : ScanCompare) (c v v2 : T) : Bool :=
  match compare with
  | .exact => c == v
  | .greater => decide (v < c)
  | .less => decide (c < v)
  | .between => cmpBetween c v v2
  | .changed => c != v
  | .unchanged => c == v
  | .increased => decide (v < c)
  | .decreased => decide (c < v)
  | .sameAsFirst => c == v
  | .unknown => true
  | _ => c == v

end Compare

/-- The half-width of an extreme search. -/
def extremeTolerance (config : ScanConfig) (requested : Float) : Float :=
  if config.floatTolerance > 0 then config.floatTolerance
  else stdMax 1e-6 (requested.abs * 1e-6)

section Floating

variable {T : Type} [ScanFloat T]

open ScanFloat

def readFloating (T : Type) [ScanFloat T] (bytes : List UInt8) (order : ByteOrder) : T :=
  ofBits (leNat (scalarBytes (size T) bytes order))

/-- `roundingType` 1 is rounded, 2 truncated, 3 extreme; anything else is exact. -/
def compareFloatingExact (config : ScanConfig) (current : T) (requested : Float) : Bool :=
  let c := toDouble current
  if c.isNaN || requested.isNaN then false
  else if !c.isFinite || !requested.isFinite then c == requested
  else if config.roundingType = 1 then
    if config.floatDecimals ≥ 0 then
      decide ((c - requested).abs ≤ 0.5 * Float.pow 10.0 (Float.ofInt (-config.floatDecimals)))
    else if c.abs > 9.2e18 || requested.abs > 9.2e18 then c.round == requested.round
    else c.round.toInt64 == requested.round.toInt64
  else if config.roundingType = 2 then stdTrunc c == stdTrunc requested
  else if config.roundingType = 3 then
    decide ((c - requested).abs ≤ extremeTolerance config requested)
  else decide (requested.abs ≤ maxValue T) && current == ofDouble requested

def compareFloating (config : ScanConfig) (current : T) : Bool :=
  if config.compareType = .exact then compareFloatingExact config current config.floatValue
  else getCompare config.compareType (toDouble current) config.floatValue config.floatValue2

end Floating

def supportsPercentageCompare : ScanCompare → Bool
  | .greater | .less | .between | .increased | .decreased => true
  | _ => false

/-- The change in percent of the earlier value. -/
def comparePercentage (config : ScanConfig) (current old : Float) : Bool :=
  let base := old.abs
  if base == 0 then false
  else
    let deltaPct := ((current - old) / base) * 100
    match config.compareType with
    | .increased | .greater => decide (deltaPct ≥ config.percentageValue)
    | .decreased | .less => decide (deltaPct ≤ -config.percentageValue)
    | .between =>
      decide (deltaPct ≥ stdMin config.percentageValue config.percentageValue2)
        && decide (deltaPct ≤ stdMax config.percentageValue config.percentageValue2)
    | _ => false

/-! ### Against an earlier value -/

/-- `compareNextNumericValues` at an integer type. -/
def compareNextInteger (t : IntType) (config : ScanConfig) (cur old : ℤ) : Bool :=
  if config.percentageScan && supportsPercentageCompare config.compareType then
    comparePercentage config (Float.ofInt cur) (Float.ofInt old)
  else if config.compareType = .sameAsFirst then cur == old
  else if config.compareType = .increasedBy || config.compareType = .decreasedBy then
    let increased : Bool := config.compareType = .increasedBy
    if (t.signed || decide (t.size < 8)) && decide (config.intValue < 0) then false
    else if (if increased then decide (cur ≤ old) else decide (old ≤ cur)) then false
    else
      let distance := (if increased then cur - old else old - cur) % t.modulus
      distance == config.intValue % 2 ^ 64
  else if config.compareType.relative then getCompare config.compareType cur old 0
  else getCompare config.compareType cur (t.cast config.intValue) (t.cast config.intValue2)

section Floating

variable {T : Type} [ScanFloat T]

open ScanFloat

/-- `compareNextNumericValues` at a floating-point type. -/
def compareNextFloating (config : ScanConfig) (cur old : T) : Bool :=
  if config.percentageScan && supportsPercentageCompare config.compareType then
    comparePercentage config (toDouble cur) (toDouble old)
  else if config.compareType = .sameAsFirst then cur == old
  else if config.compareType = .increasedBy || config.compareType = .decreasedBy then
    let increased : Bool := config.compareType = .increasedBy
    let d := config.floatValue
    let actual := if increased then toDouble cur - toDouble old else toDouble old - toDouble cur
    let magnitude := stdMax (toDouble cur).abs (toDouble old).abs
    let tol := stdMax (stdMax 1e-6 (d.abs * 1e-5)) (4.0 * epsilon T * magnitude)
    let dir := if increased then decide (old < cur) else decide (cur < old)
    let expected : T := if increased then old + ofDouble d else old - ofDouble d
    dir && (cur == expected || decide ((actual - d).abs ≤ tol))
  else if config.compareType.relative then getCompare config.compareType cur old (ofDouble 0)
  else compareFloating config cur

end Floating

/-! ### All types at once -/

namespace AllIntegerValue

/-- Where a value lies from the boundary: below, on it or above; 2 for no order. -/
def compare (value : AllIntegerValue) (current : ℤ) : ℤ :=
  if value.unordered then 2
  else if value.outsideMagnitude then (if value.negative then 1 else -1)
  else if decide (current < 0) != value.negative then (if current < 0 then -1 else 1)
  else
    let absolute := current.natAbs
    let order : ℤ := if absolute < value.magnitude.toNat then -1
      else if absolute > value.magnitude.toNat then 1
      else if value.fractional then -1 else 0
    if value.negative then -order else order

end AllIntegerValue

def ScanCompare.literal : ScanCompare → Bool
  | .exact | .greater | .less | .between => true
  | _ => false

def compareAllIntegerLiteral (config : ScanConfig) (current : ℤ) : Bool :=
  match config.allIntegerValue with
  | none => getCompare config.compareType current config.intValue config.intValue2
  | some lower =>
    if !config.compareType.literal then
      getCompare config.compareType current config.intValue config.intValue2
    else if lower.unordered then false
    else
      let order := lower.compare current
      match config.compareType with
      | .exact => order == 0
      | .greater => decide (order > 0)
      | .less => decide (order < 0)
      | .between =>
        match config.allIntegerValue2 with
        | none => false
        | some upper =>
          if upper.unordered then false
          else
            let upper := upper.compare current
            (decide (order ≥ 0) && decide (upper ≤ 0)) || (decide (upper ≥ 0) && decide (order ≤ 0))
      | _ => false

/-- The 8-byte reading as unsigned, for an exact value above `INT64_MAX`. -/
def matchesUnsigned64 (config : ScanConfig) (current : ℕ) : Bool :=
  match config.allIntegerValue with
  | none => false
  | some value =>
    config.compareType = .exact && !value.negative && !value.fractional
      && !value.outsideMagnitude && !value.unordered && decide (value.magnitude.toNat > 2 ^ 63 - 1)
      && value.magnitude.toNat == current

def compareAllFloatingLiteral {T : Type} [ScanFloat T] (config : ScanConfig) (current : T) :
    Bool :=
  compareFloating config current

def compareNextAllInteger (config : ScanConfig) (current old : ℤ) : Bool :=
  let amount := config.compareType = .increasedBy || config.compareType = .decreasedBy
  match config.allIntegerValue with
  | none => compareNextInteger .int64 config current old
  | some value =>
    if (config.percentageScan && supportsPercentageCompare config.compareType)
        || (!config.compareType.literal && !amount) then
      compareNextInteger .int64 config current old
    else if amount then
      if value.negative || value.fractional || value.outsideMagnitude || value.unordered then false
      else
        let increased : Bool := config.compareType = .increasedBy
        if (if increased then decide (current ≤ old) else decide (old ≤ current)) then false
        else
          let distance : ℤ := (if increased then current - old else old - current) % 2 ^ 64
          distance == value.magnitude.toNat
    else compareAllIntegerLiteral config current

inductive ScalarType
  | int (t : IntType)
  | float
  | double
  deriving Repr, DecidableEq

def ScalarType.size : ScalarType → ℕ
  | .int t => t.size
  | .float => 4
  | .double => 8

/-- The candidates, by the bits of a mask. -/
def allCandidateTypes : List ScalarType :=
  [.int .uint8, .int .int16, .int .int32, .int .int64, .float, .double]

def allCandidateWidths : List ℕ := [1, 2, 4, 8, 4, 8]

def candidateMask (test : ScalarType → ℕ → Bool) : UInt8 :=
  allCandidateTypes.zipIdx.foldl
    (fun mask c => if test c.1 c.2 then mask ||| UInt8.ofNat (2 ^ c.2) else mask) 0

def hasCandidate (mask : UInt8) (bit : ℕ) : Bool := mask &&& UInt8.ofNat (2 ^ bit) != 0

def allCandidateMatches (config : ScanConfig) (type : ScalarType) (bytes : List UInt8) : Bool :=
  match type with
  | .int t =>
    let current := t.read bytes config.byteOrder
    compareAllIntegerLiteral config current
      || (config.compareType = .exact && decide (t.size < 8)
        && compareAllIntegerLiteral config (t.otherSignedness current))
      || (t.size == 8 && matchesUnsigned64 config (current % 2 ^ 64).toNat)
  | .float => compareAllFloatingLiteral config (readFloating Float32 bytes config.byteOrder)
  | .double => compareAllFloatingLiteral config (readFloating Float bytes config.byteOrder)

def allCandidatesFitting (mask : UInt8) (lastDistance : ℕ) : UInt8 :=
  allCandidateWidths.zipIdx.foldl
    (fun mask c =>
      if c.1 - 1 > lastDistance then mask &&& ~~~UInt8.ofNat (2 ^ c.2) else mask) mask

def allCandidateReadSize (mask : UInt8) : ℕ :=
  allCandidateWidths.zipIdx.foldl
    (fun size c => if hasCandidate mask c.2 then max size c.1 else size) 0

def allCandidateFor (type : ValueType) : UInt8 :=
  match type with
  | .byte => 1
  | .int16 => 2
  | .int32 => 4
  | .int64 => 8
  | .float => 16
  | .double => 32
  | _ => 0

def nextAllFloatingMatches {T : Type} [ScanFloat T] (config : ScanConfig) (value previous : T) :
    Bool :=
  if config.compareType.literal
      && !(config.percentageScan && supportsPercentageCompare config.compareType) then
    compareAllFloatingLiteral config value
  else compareNextFloating config value previous

def nextAllCandidateMatches (config : ScanConfig) (type : ScalarType)
    (current reference : List UInt8) : Bool :=
  match type with
  | .int t =>
    let value := t.read current config.byteOrder
    let previous := t.read reference config.byteOrder
    compareNextAllInteger config value previous
      || (config.compareType = .exact && decide (t.size < 8)
        && compareNextAllInteger config (t.otherSignedness value) (t.otherSignedness previous))
      || (t.size == 8 && matchesUnsigned64 config (value % 2 ^ 64).toNat)
  | .float => nextAllFloatingMatches config (readFloating Float32 current config.byteOrder)
      (readFloating Float32 reference config.byteOrder)
  | .double => nextAllFloatingMatches config (readFloating Float current config.byteOrder)
      (readFloating Float reference config.byteOrder)

def nextAllTypeCandidates (config : ScanConfig) (candidates : UInt8)
    (current old first : List UInt8) : UInt8 :=
  let reference := if config.compareType = .sameAsFirst then first else old
  candidateMask fun type bit =>
    hasCandidate candidates bit && nextAllCandidateMatches config type current reference

/-! ### Bytes -/

def asciiLower (c : UInt8) : UInt8 := if 0x41 ≤ c && c ≤ 0x5a then c + 0x20 else c

/-- One UTF-16 unit at byte `i`: ASCII units fold, any other unit is compared as it is. -/
def unitMatches (value needle : List UInt8) (order : ByteOrder) (i : ℕ) : Bool :=
  let low := i + (if order = .big then 1 else 0)
  let high := i + (if order = .big then 0 else 1)
  if value.getD high 0 != needle.getD high 0 then false
  else if value.getD high 0 == 0 && decide (value.getD low 0 < 128)
      && decide (needle.getD low 0 < 128) then
    asciiLower (value.getD low 0) == asciiLower (needle.getD low 0)
  else value.getD low 0 == needle.getD low 0

/-- `memcmp(a, b, size) == 0`. -/
def bytesEqual (a b : List UInt8) (size : ℕ) : Bool := a.take size == b.take size

def stringBytesMatch (value needle : List UInt8) (size : ℕ) (caseSensitive unicode : Bool)
    (order : ByteOrder) : Bool :=
  if caseSensitive then bytesEqual value needle size
  else if unicode then
    if size % 2 != 0 then false
    else (List.range (size / 2)).all fun k => unitMatches value needle order (2 * k)
  else (List.range size).all fun i => asciiLower (value.getD i 0) == asciiLower (needle.getD i 0)

/-- Masked comparison; a byte without a mask is compared whole. -/
def compareMaskedBytes (current pattern mask : List UInt8) : Bool :=
  !pattern.isEmpty && (List.range pattern.length).all fun i =>
    let m := mask.getD i 0xFF
    current.getD i 0 &&& m == pattern.getD i 0 &&& m

/-- The bits a mask selects, of each byte. -/
def maskedEqual (current pattern mask : List UInt8) : Bool :=
  (List.range pattern.length).all fun j =>
    current.getD j 0 &&& mask.getD j 0 == pattern.getD j 0 &&& mask.getD j 0

/-- The bit comparison of a binary pattern, which must have a mask byte for each byte. -/
def binaryBytesMatch (current pattern mask : List UInt8) : Bool :=
  mask.length == pattern.length && maskedEqual current pattern mask

def groupedTermMatches (value : List UInt8) (term : GroupedTerm) (config : ScanConfig) : Bool :=
  let integer (t : IntType) : Bool := t.read value config.byteOrder == t.cast term.intValue
  match term.valueType with
  | .byte => integer .uint8
  | .int16 => integer .int16
  | .int32 => integer .int32
  | .int64 => integer .int64
  | .pointer => integer (if config.pointerWidth = 4 then .uint32 else .uint64)
  | .float => compareFloatingExact config (readFloating Float32 value config.byteOrder)
      term.floatValue
  | .double => compareFloatingExact config (readFloating Float value config.byteOrder)
      term.floatValue
  | .string => stringBytesMatch value term.stringValue term.stringValue.length
      config.caseSensitive false .little
  | .unicodeString => stringBytesMatch value term.byteArray term.byteArray.length
      config.caseSensitive true config.byteOrder
  | .byteArray => compareMaskedBytes value term.byteArray term.byteArrayMask
  | .binary => binaryBytesMatch value term.byteArray term.byteMask
  | _ => false

/-- Every term at its place in the block.  The size of a term that cannot be encoded has been
asked for, and refused, before a block is compared. -/
def groupedBlockMatches (iconv : String → List UInt8 → Option (List UInt8)) (block : List UInt8)
    (blockSize : ℕ) (config : ScanConfig) : Bool :=
  config.groupedTerms.all fun term =>
    let termSize := (groupedTermValueSize iconv term config.pointerWidth).toOption.getD 0
    !(termSize == 0 || decide (termSize > blockSize) || decide (term.offset > blockSize - termSize))
      && groupedTermMatches (block.drop term.offset) term config

/-! ### The predicate of a next scan -/

/-- The evaluator of a custom formula: one Lua state for a worker, which every candidate's
evaluation may change; `none` is no usable outcome. -/
structure FormulaEvaluator (σ : Type) where
  fresh : σ
  eval : σ → (current old : List UInt8) → (hasOld : Bool) → Option Bool × σ

/-- Texts, byte arrays and binary values: they have changed or not, or equal the search. -/
def compareNextBytes (config : ScanConfig) (valueSize : ℕ) (currentVal oldVal firstVal : List UInt8)
    (exact : Bool) : Bool :=
  if config.compareType = .sameAsFirst then bytesEqual currentVal firstVal valueSize
  else if config.compareType.relative then
    !bytesEqual currentVal oldVal valueSize == (config.compareType = .changed
      || config.compareType = .increased || config.compareType = .decreased)
  else if config.compareType = .exact then exact
  else config.compareType = .unknown

/-- Grouped and custom values: they have changed or not, or equal the search. -/
def compareNextBlock (config : ScanConfig) (valueSize : ℕ) (currentVal oldVal compareVal : List UInt8)
    (exact : Bool) : Bool :=
  if config.compareType = .unknown then true
  else if config.compareType = .changed then !bytesEqual currentVal oldVal valueSize
  else if config.compareType = .unchanged || config.compareType = .sameAsFirst then
    bytesEqual currentVal compareVal valueSize
  else config.compareType = .exact && exact

/-- The search texts of a next scan, encoded once. -/
structure Needles where
  string : List UInt8 := []
  unicode : List UInt8 := []
  deriving Repr, DecidableEq

section Next

variable (iconv : String → List UInt8 → Option (List UInt8)) {σ : Type}

/-- Does a row still match?  The formula's state goes in and comes out. -/
def nextScanCompare (lua : FormulaEvaluator σ) (config : ScanConfig) (valueSize : ℕ)
    (currentVal oldVal firstVal : List UInt8) (needles : Needles) (st : σ) : Bool × σ :=
  let compareVal := if config.compareType = .sameAsFirst then firstVal else oldVal
  let integer (t : IntType) : Bool := compareNextInteger t config
    (t.read currentVal config.byteOrder) (t.read compareVal config.byteOrder)
  let bytes := compareNextBytes config valueSize currentVal oldVal firstVal
  let block := compareNextBlock config valueSize currentVal oldVal compareVal
  match config.valueType with
  | .byte => (integer .uint8, st)
  | .int16 => (integer .int16, st)
  | .int32 => (integer .int32, st)
  | .int64 => (integer .int64, st)
  | .pointer => (integer (if config.pointerWidth = 4 then .uint32 else .uint64), st)
  | .float => (compareNextFloating config (readFloating Float32 currentVal config.byteOrder)
      (readFloating Float32 compareVal config.byteOrder), st)
  | .double => (compareNextFloating config (readFloating Float currentVal config.byteOrder)
      (readFloating Float compareVal config.byteOrder), st)
  | .string => (bytes (needles.string.length == valueSize
      && stringBytesMatch currentVal needles.string valueSize config.caseSensitive false .little),
      st)
  | .unicodeString => (bytes (needles.unicode.length == valueSize
      && stringBytesMatch currentVal needles.unicode valueSize config.caseSensitive true
        config.byteOrder), st)
  | .byteArray => (bytes (compareMaskedBytes currentVal config.byteArray config.byteArrayMask), st)
  | .binary => (bytes (!config.byteArray.isEmpty
      && binaryBytesMatch currentVal config.byteArray config.byteMask), st)
  | .grouped => (block (groupedBlockMatches iconv currentVal valueSize config), st)
  | .custom =>
    if config.compareType = .exact then
      if config.customFormula.isEmpty then (false, st)
      else
        let (outcome, st) := lua.eval st (currentVal.take valueSize) (compareVal.take valueSize) true
        (outcome.getD false, st)
    else (block false, st)
  | .all =>
    (if config.compareType = .sameAsFirst then bytesEqual currentVal firstVal valueSize
      else !bytesEqual currentVal oldVal valueSize == (config.compareType = .changed), st)

end Next

end CheatEngine
