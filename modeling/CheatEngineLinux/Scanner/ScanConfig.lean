import CheatEngineLinux.Scanner.ScanResult

/-!
# What a scan searches for

`ScanConfig` (`scanner/memory_scanner.hpp`) with the checks a scan makes of it before it
touches memory: `targetScanConfig` fills in the target's data format, refuses what the
comparison could not represent and turns negative amounts round.

Texts are byte strings.  Encodings other than UTF-8 go through `iconv`, which is a parameter:
`iconv encoding text` is `none` where the library rejects the encoding or the text.
-/

namespace CheatEngine

inductive ValueType
  | byte
  | int16
  | int32
  | int64
  | float
  | double
  | string
  | unicodeString
  | byteArray
  | binary
  | all
  | grouped
  | custom
  | pointer
  deriving Repr, DecidableEq

inductive ScanCompare
  | exact
  | greater
  | less
  | between
  | unknown
  | changed
  | unchanged
  | increased
  | decreased
  | increasedBy
  | decreasedBy
  | sameAsFirst
  deriving Repr, DecidableEq

/-- `compareType >= ScanCompare::Changed`: the compares with an earlier value. -/
def ScanCompare.relative : ScanCompare → Bool
  | .exact | .greater | .less | .between | .unknown => false
  | _ => true

inductive ProtMatch
  | any
  | yes
  | no
  deriving Repr, DecidableEq

structure AllIntegerValue where
  magnitude : UInt64 := 0
  negative : Bool := false
  fractional : Bool := false
  outsideMagnitude : Bool := false
  unordered : Bool := false
  deriving Repr, DecidableEq

structure GroupedTerm where
  valueType : ValueType := .int32
  offset : ℕ := 0
  intValue : ℤ := 0
  floatValue : Float := 0
  stringValue : List UInt8 := []
  byteArray : List UInt8 := []
  byteArrayMask : List UInt8 := []
  byteMask : List UInt8 := []

/-- A scan's configuration.  `intValue` and `intValue2` hold 64-bit values, `alignment`,
`offset` and `customValueSize` are sizes. -/
structure ScanConfig where
  valueType : ValueType := .int32
  byteOrder : ByteOrder := .unknown
  pointerWidth : ℕ := 0
  compareType : ScanCompare := .exact
  alignment : ℕ := 4
  startAddress : UInt64 := 0
  stopAddress : UInt64 := 0xFFFFFFFFFFFFFFFF
  writableMatch : ProtMatch := .any
  executableMatch : ProtMatch := .any
  scanPrivate : Bool := true
  scanImage : Bool := true
  scanMapped : Bool := true
  roundingType : ℤ := 0
  floatDecimals : ℤ := -1
  floatTolerance : Float := 0
  percentageScan : Bool := false
  percentageValue : Float := 0
  percentageValue2 : Float := 0
  intValue : ℤ := 0
  intValue2 : ℤ := 0
  floatValue : Float := 0
  floatValue2 : Float := 0
  allIntegerValue : Option AllIntegerValue := none
  allIntegerValue2 : Option AllIntegerValue := none
  stringValue : List UInt8 := []
  stringEncoding : String := ""
  caseSensitive : Bool := true
  byteArray : List UInt8 := []
  byteArrayMask : List UInt8 := []
  byteMask : List UInt8 := []
  groupedTerms : List GroupedTerm := []
  customFormula : String := ""
  customValueSize : ℕ := 4

/-! ### Text -/

/-- `std::isspace` in the C locale. -/
def isSpace (c : Char) : Bool :=
  c == ' ' || c == '\t' || c == '\n' || c == '\x0b' || c == '\x0c' || c == '\r'

def isUtf8Encoding (encoding : String) : Bool :=
  let trimmed := ((encoding.toList.dropWhile isSpace).reverse.dropWhile isSpace).reverse
  let normalized := String.ofList (trimmed.map Char.toLower)
  normalized.isEmpty || normalized == "utf8" || normalized == "utf-8"

section Config

variable (iconv : String → List UInt8 → Option (List UInt8))

def encodeStringBytes (text : List UInt8) (encoding : String) : Except String (List UInt8) :=
  if isUtf8Encoding encoding then .ok text
  else
    match iconv encoding text with
    | some bytes => .ok bytes
    | none =>
      -- the empty text fails only where `iconv_open` does
      .error ((if (iconv encoding []).isNone then "unsupported string encoding: "
        else "string encoding conversion failed for ") ++ encoding)

def utf16Bytes (text : List UInt8) (order : ByteOrder) : Except String (List UInt8) :=
  encodeStringBytes iconv text (if order = .big then "UTF-16BE" else "UTF-16LE")

/-! ### Sizes -/

def groupedTermValueSize (term : GroupedTerm) (pointerWidth : ℕ) : Except String ℕ :=
  match term.valueType with
  | .byte => .ok 1
  | .int16 => .ok 2
  | .int32 | .float => .ok 4
  | .pointer => .ok pointerWidth
  | .int64 | .double => .ok 8
  | .string => .ok (max 1 term.stringValue.length)
  | .unicodeString => do
    let bytes ← utf16Bytes iconv term.stringValue .little
    return max 2 bytes.length
  | .byteArray | .binary => .ok (max 1 term.byteArray.length)
  | _ => .ok 0

/-- The block a list of terms spans; 0 when an end is no `size_t`. -/
def groupedSizeFrom (pointerWidth : ℕ) : ℕ → List GroupedTerm → Except String ℕ
  | blockSize, [] => .ok blockSize
  | blockSize, term :: rest => do
    let termSize ← groupedTermValueSize iconv term pointerWidth
    if termSize = 0 then groupedSizeFrom pointerWidth blockSize rest
    else if term.offset > sizeMax - termSize then return 0
    else groupedSizeFrom pointerWidth (max blockSize (term.offset + termSize)) rest

def ScanConfig.groupedValueSize (config : ScanConfig) : Except String ℕ :=
  groupedSizeFrom iconv (if config.pointerWidth = 0 then 8 else config.pointerWidth) 0
    config.groupedTerms

/-- The bytes of one match. -/
def valueSizeForConfig (config : ScanConfig) : Except String ℕ :=
  match config.valueType with
  | .string => do
    let bytes ← encodeStringBytes iconv config.stringValue config.stringEncoding
    return max 1 bytes.length
  | .unicodeString => do
    let bytes ← utf16Bytes iconv config.stringValue config.byteOrder
    return max 2 bytes.length
  | .byteArray | .binary => .ok (max 1 config.byteArray.length)
  | .all => .ok 8
  | .grouped => do
    let size ← config.groupedValueSize iconv
    return max 1 size
  | .custom => .ok (max 1 config.customValueSize)
  | .byte => .ok 1
  | .int16 => .ok 2
  | .int32 | .float => .ok 4
  | .pointer => .ok config.pointerWidth
  | .int64 | .double => .ok 8

/-! ### Checks -/

/-- `if (refused) throw std::invalid_argument(message)`. -/
def refuseIf (refused : Bool) (message : String) : Except String Unit :=
  if refused then .error message else .ok ()

/-- The range an integer search value must lie in for its type and compare. -/
def integerRange (config : ScanConfig) : Option (ℤ × ℤ) :=
  let range (bits : ℕ) (unsignedCompare : Bool) : Option (ℤ × ℤ) :=
    let signedMin : ℤ := -2 ^ (bits - 1)
    let signedMax : ℤ := 2 ^ (bits - 1) - 1
    let unsignedMax : ℤ := 2 ^ bits - 1
    match config.compareType with
    | .exact => some (signedMin, unsignedMax)
    | .greater | .less | .between =>
      some (if unsignedCompare then (0, unsignedMax) else (signedMin, signedMax))
    | .increasedBy | .decreasedBy => some (-unsignedMax, unsignedMax)
    | _ => none
  match config.valueType with
  | .byte => range 8 true
  | .int16 => range 16 false
  | .int32 => range 32 false
  | _ => none

def integerTypeName : ValueType → String
  | .byte => "Byte"
  | .int16 => "2 Bytes"
  | .int32 => "4 Bytes"
  | _ => ""

def checkIntegerRange (config : ScanConfig) : Except String Unit :=
  match integerRange config with
  | none => .ok ()
  | some (low, high) =>
    let check (value : ℤ) : Except String Unit :=
      if value < low || value > high then
        .error (toString value ++ " does not fit in " ++ integerTypeName config.valueType
          ++ " for this scan (" ++ toString low ++ " to " ++ toString high ++ ")")
      else .ok ()
    do
      check config.intValue
      if config.compareType = .between then check config.intValue2 else .ok ()

def scanNeedsByteOrder (config : ScanConfig) : Bool :=
  if config.valueType = .grouped then
    config.groupedTerms.any fun term =>
      term.valueType != .byte && term.valueType != .byteArray && term.valueType != .string
        && term.valueType != .binary
  else
    config.valueType != .byte && config.valueType != .byteArray && config.valueType != .binary
      && config.valueType != .string && config.valueType != .custom

def scanNeedsPointerWidth (config : ScanConfig) : Bool :=
  config.valueType = .pointer || config.groupedTerms.any fun term => term.valueType = .pointer

/-- The bytes of the target that can be read, by address. -/
abbrev Memory := ℕ → Option UInt8

/-- `n` bytes at `a`, where all of them can be read. -/
def readBytes (mem : Memory) : ℕ → ℕ → Option (List UInt8)
  | _, 0 => some []
  | a, n + 1 =>
    match mem a, readBytes mem (a + 1) n with
    | some b, some rest => some (b :: rest)
    | _, _ => none

theorem readBytes_length {mem : Memory} {a n : ℕ} {bytes : List UInt8}
    (h : readBytes mem a n = some bytes) : bytes.length = n := by
  induction n generalizing a bytes with
  | zero =>
    rw [readBytes, Option.some.injEq] at h
    rw [← h]
    rfl
  | succ n ih =>
    rw [readBytes] at h
    split at h
    · rename_i b rest hb hrest
      rw [← Option.some.inj h, List.length_cons, ih hrest]
    · cases h

/-- What a scan asks of its target before it starts. -/
structure TargetDescription where
  live : Bool := true
  byteOrder : ByteOrder := .little
  pointerWidth : ℕ := 8
  deriving Repr, DecidableEq

def flipNegativeAmount (config : ScanConfig) : Except String ScanConfig :=
  let flipped : ScanCompare :=
    if config.compareType = .increasedBy then .decreasedBy else .increasedBy
  if config.compareType = .increasedBy || config.compareType = .decreasedBy then
    if config.valueType = .float || config.valueType = .double then
      if config.floatValue < 0 then
        .ok { config with floatValue := -config.floatValue, compareType := flipped }
      else .ok config
    else if config.intValue < 0 then
      if config.intValue = -2 ^ 63 then .error "The amount changed by is out of range"
      else .ok { config with
        intValue := -config.intValue
        floatValue := if config.valueType = .all && config.floatValue < 0 then -config.floatValue
          else config.floatValue
        compareType := flipped }
    else .ok config
  else .ok config

/-- The encoded text of every UTF-16 term. -/
def encodeTerms (order : ByteOrder) : List GroupedTerm → Except String (List GroupedTerm)
  | [] => .ok []
  | term :: rest => do
    let term ←
      if term.valueType = .unicodeString then do
        let bytes ← utf16Bytes iconv term.stringValue order
        pure { term with byteArray := bytes }
      else pure term
    let rest ← encodeTerms order rest
    return term :: rest

/-- A 4-byte pointer scan compares 32-bit values. -/
def checkPointerValue (config : ScanConfig) : Except String Unit :=
  let fits (value : ℤ) : Bool := decide (value % 2 ^ 64 ≤ 2 ^ 32 - 1)
  let ordered := config.compareType = .exact || config.compareType = .greater
    || config.compareType = .less || config.compareType = .between
  if config.valueType = .pointer && config.pointerWidth = 4 && ordered
      && (!fits config.intValue || (config.compareType = .between && !fits config.intValue2)) then
    .error "The search value does not fit a 4-byte pointer (0 to 0xFFFFFFFF)"
  else .ok ()

def withTargetFormat (description : TargetDescription) (requested : ScanConfig) : ScanConfig :=
  { requested with
    byteOrder := if requested.byteOrder = .unknown then description.byteOrder
      else requested.byteOrder
    pointerWidth := if requested.pointerWidth = 0 then description.pointerWidth
      else requested.pointerWidth }

/-- The configuration a scan runs with, or why it does not run. -/
def targetScanConfig (description : TargetDescription) (requested : ScanConfig) :
    Except String ScanConfig := do
  checkIntegerRange requested
  refuseIf (!description.live) "Scan target disconnected or exited"
  refuseIf (requested.startAddress > requested.stopAddress) "Scan From must not exceed To"
  let config := withTargetFormat description requested
  refuseIf (scanNeedsByteOrder config && config.byteOrder = .unknown)
    "Target data byte order is unknown; select the scan byte order explicitly"
  refuseIf (config.pointerWidth != 0 && config.pointerWidth != 4 && config.pointerWidth != 8)
    "Scan pointer width must be 4 or 8 bytes"
  refuseIf (scanNeedsPointerWidth config && config.pointerWidth = 0)
    "Target pointer width is unknown; select the scan pointer width explicitly"
  let terms ← encodeTerms iconv config.byteOrder config.groupedTerms
  let config ← flipNegativeAmount { config with groupedTerms := terms }
  checkPointerValue config
  return config

/-! ### What an accepted configuration satisfies -/

variable {iconv}

theorem bind_eq_ok {ε α β : Type} {x : Except ε α} {f : α → Except ε β} {b : β} :
    (x >>= f) = .ok b ↔ ∃ a, x = .ok a ∧ f a = .ok b := by
  cases x <;> simp [bind, Except.bind]

theorem refuseIf_eq_ok {c : Bool} {message : String} {u : Unit} :
    refuseIf c message = .ok u ↔ c = false := by
  cases c <;> simp [refuseIf]

theorem flipNegativeAmount_ok {config flipped : ScanConfig}
    (h : flipNegativeAmount config = .ok flipped) :
    flipped.valueType = config.valueType ∧ flipped.pointerWidth = config.pointerWidth ∧
      flipped.byteOrder = config.byteOrder ∧ flipped.startAddress = config.startAddress ∧
      flipped.stopAddress = config.stopAddress ∧ flipped.alignment = config.alignment ∧
      flipped.groupedTerms = config.groupedTerms := by
  unfold flipNegativeAmount at h
  dsimp only at h
  split at h
  · split at h
    · split at h
      · cases h
        exact ⟨rfl, rfl, rfl, rfl, rfl, rfl, rfl⟩
      · cases h
        exact ⟨rfl, rfl, rfl, rfl, rfl, rfl, rfl⟩
    · split at h
      · split at h
        · cases h
        · cases h
          exact ⟨rfl, rfl, rfl, rfl, rfl, rfl, rfl⟩
      · cases h
        exact ⟨rfl, rfl, rfl, rfl, rfl, rfl, rfl⟩
  · cases h
    exact ⟨rfl, rfl, rfl, rfl, rfl, rfl, rfl⟩

/-- What the target's check leaves as requested, and what it settles. -/
structure TargetConfig (requested config : ScanConfig) : Prop where
  valueType : config.valueType = requested.valueType
  startAddress : config.startAddress = requested.startAddress
  stopAddress : config.stopAddress = requested.stopAddress
  alignment : config.alignment = requested.alignment
  range : config.startAddress ≤ config.stopAddress
  pointerWidth : config.pointerWidth = 0 ∨ config.pointerWidth = 4 ∨ config.pointerWidth = 8
  pointer : config.valueType = .pointer → config.pointerWidth ≠ 0

theorem targetScanConfig_ok {description : TargetDescription} {requested config : ScanConfig}
    (h : targetScanConfig iconv description requested = .ok config) :
    TargetConfig requested config := by
  simp only [targetScanConfig, bind_eq_ok, refuseIf_eq_ok] at h
  obtain ⟨-, -, -, -, -, hrange, -, -, -, hwidth, -, hneeds, terms, -, flipped, hflip, -, -, h⟩ := h
  cases h
  obtain ⟨h1, h2, -, h4, h5, h6, -⟩ := flipNegativeAmount_ok hflip
  refine ⟨h1, h4, h5, h6, ?_, ?_, fun hp => ?_⟩
  · rw [h4, h5]
    exact UInt64.not_lt.mp (of_decide_eq_false hrange)
  · rw [h2]
    simp only [Bool.and_eq_false_iff, bne_eq_false_iff_eq] at hwidth
    tauto
  · have hpointer : (withTargetFormat description requested).valueType = .pointer := h1 ▸ hp
    simp only [scanNeedsPointerWidth, hpointer, decide_true, Bool.true_or, Bool.true_and,
      decide_eq_false_iff_not] at hneeds
    rw [h2]
    exact hneeds

/-- A match has at least one byte. -/
theorem valueSize_pos {config : ScanConfig} {size : ℕ}
    (h : valueSizeForConfig iconv config = .ok size)
    (hp : config.valueType = .pointer → config.pointerWidth ≠ 0) : 0 < size := by
  unfold valueSizeForConfig at h
  split at h <;> simp only [bind_eq_ok, pure, Except.pure, Except.ok.injEq] at h
  all_goals first
    | (obtain ⟨_, -, rfl⟩ := h; omega)
    | (rename_i hv; have := hp hv; omega)

end Config

end CheatEngine
