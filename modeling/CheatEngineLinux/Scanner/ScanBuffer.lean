import CheatEngineLinux.Library.StridedScan
import CheatEngineLinux.Scanner.ScanCompare

/-!
# Searching one buffer

The `scanBuffer*` family of `scanner/memory_scanner.cpp`: the search of a buffer for one kind of
value, with its vector and anchor paths.  A function here gives the offsets it emits, in the
order it emits them; `scanRegion` makes the rows of them.

* `scanExactInteger`, `scanRelational` — integers, with SSE2 and AVX2 lanes;
* `tryScanExactFloat`, `scanBufferFloating` — floating point;
* `anchorScan` — the search for one byte a pattern is anchored on;
* `scanBufferString`, `scanBufferUnicode`, `scanBufferAOB`, `scanBufferBinary`,
  `scanBufferAllTypes`, `scanBufferUnknown`, `scanBufferGrouped`, `scanBufferCustom`;
* `scanRegion` — the dispatch on the value type.
-/

namespace CheatEngine

open RecordFile StridedScan

inductive SimdMode
  | scalar
  | sse2
  | avx2
  deriving Repr, DecidableEq

/-- A match in a buffer. -/
structure Hit where
  offset : ℕ
  value : List UInt8
  mask : UInt8 := 0
  deriving Repr, DecidableEq

def emitAt (buf : List UInt8) (size : ℕ) (offsets : List ℕ) : List Hit :=
  offsets.map fun off => { offset := off, value := (buf.drop off).take size }

/-! ### Integers -/

/-- `movemask` of a lane comparison: each of a lane's `size` bytes has the lane's bit. -/
def movemask (size : ℕ) (equal : ℕ → Bool) (byte : ℕ) : Bool := equal (byte / size)

/-- The lanes of a vector whose low bit is set in the mask. -/
def emitMaskLanes (size width firstLane : ℕ) (mask : ℕ → Bool) : List ℕ :=
  ((List.range width).filter fun lane => mask (lane * size)).map (firstLane + ·)

/-- The lanes that equal the needle, a vector of `bytes` bytes at a time. -/
def scanExactVector (bytes : ℕ) (t : IntType) (buf : List UInt8) (nLanes : ℕ) (needle : ℤ) :
    List ℕ :=
  let width := bytes / t.size
  let needleBytes := leBytes t.size (needle % t.modulus).toNat
  let equal (i lane : ℕ) : Bool := (buf.drop ((i + lane) * t.size)).take t.size == needleBytes
  blockScan width nLanes (fun i => emitMaskLanes t.size width i (movemask t.size (equal i)))
    fun i => t.read (buf.drop (i * t.size)) nativeScanByteOrder == needle

def scanExactInteger (mode : SimdMode) (t : IntType) (buf : List UInt8) (alignment : ℕ)
    (needle : ℤ) : List ℕ :=
  if buf.length < t.size then []
  else
    let alignment := if alignment = 0 then 1 else alignment
    if alignment = t.size then
      let nLanes := (buf.length - t.size) / t.size + 1
      let scalarLanes := (List.range nLanes).filter fun i =>
        t.read (buf.drop (i * t.size)) nativeScanByteOrder == needle
      let lanes := match mode with
        | .avx2 => scanExactVector 32 t buf nLanes needle
        -- SSE2 has no 8-byte compare
        | .sse2 => if t.size = 1 || t.size = 2 || t.size = 4 then
            scanExactVector 16 t buf nLanes needle else scalarLanes
        | .scalar => scalarLanes
      lanes.map (· * t.size)
    else
      (strideOffsets (buf.length - t.size + 1) alignment).filter fun off =>
        t.read (buf.drop off) nativeScanByteOrder == needle

/-- The compares other than exact; the loop is the same for all of them. -/
def scanRelational (t : IntType) (buf : List UInt8) (alignment : ℕ) (v v2 : ℤ)
    (compare : ScanCompare) (order : ByteOrder) : List ℕ :=
  if buf.length < t.size then []
  else
    let alignment := if alignment = 0 then 1 else alignment
    (strideOffsets (buf.length - t.size + 1) alignment).filter fun off =>
      getCompare compare (t.read (buf.drop off) order) v v2

/-- In the other byte order an exact search looks for the reversed needle. -/
def scanIntegerTarget (mode : SimdMode) (t : IntType) (buf : List UInt8) (alignment : ℕ)
    (value value2 : ℤ) (compare : ScanCompare) (order : ByteOrder) : List ℕ :=
  if t.size = 1 || order = nativeScanByteOrder then
    if compare = .exact then scanExactInteger mode t buf alignment value
    else scanRelational t buf alignment value value2 compare nativeScanByteOrder
  else if compare = .exact then scanExactInteger mode t buf alignment (t.swap value)
  else scanRelational t buf alignment value value2 compare order

/-! ### Floating point -/

section Floating

variable (T : Type) [ScanFloat T]

open ScanFloat

def scanBufferFloating (buf : List UInt8) (alignment : ℕ) (config : ScanConfig) : List ℕ :=
  if buf.length < size T then []
  else
    let alignment := if alignment = 0 then 1 else alignment
    (strideOffsets (buf.length - size T + 1) alignment).filter fun off =>
      compareFloating config (readFloating T (buf.drop off) config.byteOrder)

variable {T}

/-- `std::nextafter(x, -infinity)`, or with `up` towards `infinity`. -/
def nextAfter (up : Bool) (x : T) : T :=
  let sign := 2 ^ (8 * size T - 1)
  let d := toDouble x
  if d.isNaN || (d.isInf && (decide (d > 0) == up)) then x
  else if toBits x % sign = 0 then ofBits (if up then 1 else sign + 1)
  else if decide (toBits x < sign) == up then ofBits (toBits x + 1) else ofBits (toBits x - 1)

variable (T)

/-- The window an inexact search rejects values outside of: `lo` and `hi`. -/
def roundedWindow (config : ScanConfig) : T × T :=
  let s := config.floatValue
  let tol := if config.roundingType = 3 then extremeTolerance config s else 0
  let hw := stdMax 2 tol + 2
  (nextAfter false (ofDouble (s - hw)), nextAfter true (ofDouble (s + hw)))

/-- Lanes by a vector of `bytes` bytes: `block` is the test in a vector, `test` that of the
lanes behind the last one. -/
def scanFloatLanes (mode : SimdMode) (buf : List UInt8) (nLanes : ℕ) (block test : T → Bool) :
    List ℕ :=
  let lane (i : ℕ) : T := readFloating T (buf.drop (i * size T)) nativeScanByteOrder
  let vector (bytes : ℕ) := blockScan (bytes / size T) nLanes
    (fun i => (List.range' i (bytes / size T)).filter fun k => block (lane k)) fun k => test (lane k)
  match mode with
  | .avx2 => vector 32
  | .sse2 => vector 16
  | .scalar => (List.range nLanes).filter fun k => test (lane k)

/-- An exact search for a finite value at the stride of its size; `none` where it does not
apply. -/
def tryScanExactFloat (mode : SimdMode) (buf : List UInt8) (alignment : ℕ) (config : ScanConfig) :
    Option (List ℕ) :=
  if config.compareType != .exact || alignment != size T || decide (buf.length < size T)
      || !config.floatValue.isFinite || decide (config.floatValue.abs > maxValue T) then none
  else
    let nLanes := (buf.length - size T) / size T + 1
    let lanes :=
      if config.roundingType = 0 then
        let equal (c : T) : Bool := c == ofDouble config.floatValue
        scanFloatLanes T mode buf nLanes equal equal
      else
        let (lo, hi) := roundedWindow T config
        let verify (c : T) : Bool := compareFloatingExact config c config.floatValue
        scanFloatLanes T mode buf nLanes
          (fun c => decide (lo ≤ c) && decide (c ≤ hi) && verify c) verify
    some (lanes.map (· * size T))

/-- The search for `float` and `double`. -/
def scanFloatTarget (mode : SimdMode) (buf : List UInt8) (config : ScanConfig) : List ℕ :=
  if config.byteOrder != nativeScanByteOrder then scanBufferFloating T buf config.alignment config
  else (tryScanExactFloat T mode buf config.alignment config).getD
    (scanBufferFloating T buf config.alignment config)

end Floating

/-! ### Byte patterns -/

/-- Positions in `[startPos, endPos)` that hold the anchor, 16 at a time. -/
def anchorScan (mode : SimdMode) (buf : List UInt8) (startPos endPos : ℕ) (anchor : UInt8) :
    List ℕ :=
  let isAnchor (k : ℕ) : Bool := buf.getD (startPos + k) 0 == anchor
  let found := if mode = .scalar then (List.range (endPos - startPos)).filter isAnchor
    else blockScan 16 (endPos - startPos) (fun i => (List.range' i 16).filter isAnchor) isAnchor
  found.map (startPos + ·)

def scanBufferString (mode : SimdMode) (buf needle : List UInt8) (caseInsensitive : Bool) :
    List ℕ :=
  if needle.isEmpty || decide (buf.length < needle.length) then []
  else
    let limit := buf.length - needle.length + 1
    if !caseInsensitive then
      (anchorScan mode buf 0 limit (needle.getD 0 0)).filter fun off =>
        bytesEqual (buf.drop off) needle needle.length
    else
      (List.range limit).filter fun off =>
        stringBytesMatch (buf.drop off) needle needle.length false false .little

def scanBufferUnicode (buf needle : List UInt8) (caseInsensitive : Bool) (order : ByteOrder) :
    List ℕ :=
  if needle.length = 0 || decide (buf.length < needle.length) then []
  else
    (strideOffsets (buf.length - needle.length + 1) 2).filter fun off =>
      stringBytesMatch (buf.drop off) needle needle.length (!caseInsensitive) true order

/-- Anchored on the first byte that must match whole. -/
def scanBufferAOB (mode : SimdMode) (buf pattern mask : List UInt8) : List ℕ :=
  if pattern.isEmpty || mask.length != pattern.length || decide (buf.length < pattern.length) then []
  else
    let limit := buf.length - pattern.length + 1
    let verifyAt (off : ℕ) : Bool := maskedEqual (buf.drop off) pattern mask
    let anchorIdx := mask.findIdx (· == 0xFF)
    if anchorIdx = pattern.length then (List.range limit).filter verifyAt
    else
      ((anchorScan mode buf anchorIdx (limit + anchorIdx) (pattern.getD anchorIdx 0)).map
        (· - anchorIdx)).filter verifyAt

def scanBufferBinary (buf pattern mask : List UInt8) (alignment : ℕ) : List ℕ :=
  if pattern.isEmpty || mask.length != pattern.length || decide (buf.length < pattern.length) then []
  else
    let alignment := if alignment = 0 then 1 else alignment
    (strideOffsets (buf.length - pattern.length + 1) alignment).filter fun off =>
      maskedEqual (buf.drop off) pattern mask

/-! ### Several values -/

def allTypeMask (config : ScanConfig) (bytes : List UInt8) : UInt8 :=
  candidateMask fun type _ =>
    !decide (type.size > bytes.length) && allCandidateMatches config type bytes

/-- The 8-byte window at the front of some bytes, padded at a region's end. -/
def allTypeWindow (bytes : List UInt8) : List UInt8 :=
  bytes.take 8 ++ List.replicate (8 - bytes.length) 0

def scanBufferAllTypes (buf : List UInt8) (alignment : ℕ) (config : ScanConfig) (emitLimit : ℕ) :
    List Hit :=
  ((strideOffsets (min emitLimit buf.length) (max 1 alignment)).filter fun off =>
      allTypeMask config (buf.drop off) != 0).map fun off =>
    ⟨off, allTypeWindow (buf.drop off), allTypeMask config (buf.drop off)⟩

def scanBufferUnknown (buf : List UInt8) (alignment valueSize : ℕ) : List ℕ :=
  if valueSize = 0 || decide (buf.length < valueSize) then []
  else
    let alignment := if alignment = 0 then 1 else alignment
    strideOffsets (buf.length - valueSize + 1) alignment

section Region

variable (iconv : String → List UInt8 → Option (List UInt8)) {σ : Type} (lua : FormulaEvaluator σ)

def ScanConfig.blockSize (config : ScanConfig) : ℕ :=
  (config.groupedValueSize iconv).toOption.getD 0

def scanBufferGrouped (buf : List UInt8) (alignment : ℕ) (config : ScanConfig) : List ℕ :=
  let blockSize := config.blockSize iconv
  if config.groupedTerms.isEmpty || blockSize = 0 || decide (buf.length < blockSize) then []
  else
    let alignment := if alignment = 0 then 1 else alignment
    (strideOffsets (buf.length - blockSize + 1) alignment).filter fun off =>
      groupedBlockMatches iconv (buf.drop off) blockSize config

/-- The formula at one offset after the other; `customEval` is missing in a probe. -/
def scanBufferCustom (buf : List UInt8) (config : ScanConfig) (st : σ) : List ℕ × σ :=
  let customSize := max 1 config.customValueSize
  if buf.length < customSize then ([], st)
  else
    (strideOffsets (buf.length - customSize + 1) (max 1 config.alignment)).foldl
      (fun (found, st) off =>
        if config.compareType = .unknown then (found ++ [off], st)
        else if config.customFormula.isEmpty then (found, st)
        else
          let bytes := (buf.drop off).take customSize
          let (outcome, st) := lua.eval st bytes bytes false
          (if outcome.getD false then found ++ [off] else found, st))
      ([], st)

/-- The search of one buffer for what the configuration asks for. -/
def scanRegion (mode : SimdMode) (config : ScanConfig) (buf : List UInt8) (emitLimit : ℕ) (st : σ) :
    List Hit × σ :=
  let integer (t : IntType) : List Hit := emitAt buf t.size
    (scanIntegerTarget mode t buf config.alignment (t.cast config.intValue)
      (t.cast config.intValue2) config.compareType config.byteOrder)
  match config.valueType with
  | .byte => (integer .uint8, st)
  | .int16 => (integer .int16, st)
  | .int32 => (integer .int32, st)
  | .int64 => (integer .int64, st)
  | .pointer => (integer (if config.pointerWidth = 4 then .uint32 else .uint64), st)
  | .float => (emitAt buf 4 (scanFloatTarget Float32 mode buf config), st)
  | .double => (emitAt buf 8 (scanFloatTarget Float mode buf config), st)
  | .string =>
    let needle := (encodeStringBytes iconv config.stringValue config.stringEncoding).toOption.getD []
    (emitAt buf needle.length (scanBufferString mode buf needle (!config.caseSensitive)), st)
  | .unicodeString =>
    let needle := (utf16Bytes iconv config.stringValue config.byteOrder).toOption.getD []
    (emitAt buf needle.length
      (scanBufferUnicode buf needle (!config.caseSensitive) config.byteOrder), st)
  | .byteArray => (emitAt buf config.byteArray.length
      (scanBufferAOB mode buf config.byteArray config.byteArrayMask), st)
  | .binary => (emitAt buf config.byteArray.length
      (scanBufferBinary buf config.byteArray config.byteMask config.alignment), st)
  | .all => (scanBufferAllTypes buf config.alignment config emitLimit, st)
  | .grouped =>
    (emitAt buf (config.blockSize iconv) (if config.compareType = .unknown then
        scanBufferUnknown buf config.alignment (config.blockSize iconv)
      else scanBufferGrouped iconv buf config.alignment config), st)
  | .custom =>
    let (offsets, st) := scanBufferCustom lua buf config st
    (emitAt buf (max 1 config.customValueSize) offsets, st)

end Region

end CheatEngine
