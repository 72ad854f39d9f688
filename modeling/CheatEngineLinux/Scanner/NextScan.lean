import CheatEngineLinux.Scanner.ScanCompare
import CheatEngineLinux.Scanner.ScanShards

/-!
# The next scan

`MemoryScanner::nextScan`: the rows of the previous result are read back in batches, those in
range are read again from the target in one call, and the ones that still match are written to
a new result.  Large results are split among workers by index.

The scan is not cancelled and its target stays alive; buffers are as large as they need to be.
-/

namespace CheatEngine

open RecordFile ScanResult

/-- The target of a next scan.  `readMany addresses size` has an entry for each address, `none`
where the bytes could not be read. -/
structure ScanTarget where
  description : TargetDescription := {}
  supportsConcurrentReads : Bool := true
  readMany : List UInt64 → ℕ → List (Option (List UInt8))

/-! ### Before the scan -/

def ScanCompare.ofBlocks : ScanCompare → Bool
  | .exact | .changed | .unchanged | .sameAsFirst | .unknown => true
  | _ => false

/-- Types whose values are only blocks of bytes, or have no order. -/
def checkNextCompare (iconv : String → List UInt8 → Option (List UInt8)) (config : ScanConfig) :
    Except String Unit := do
  if config.valueType = .grouped then
    refuseIf config.groupedTerms.isEmpty
      "ValueType::Grouped requires grouped terms (use parseGrouped)"
    let size ← config.groupedValueSize iconv
    refuseIf (size = 0) "ValueType::Grouped has invalid grouped terms"
    refuseIf (!config.compareType.ofBlocks)
      "ValueType::Grouped next scan supports exact/changed/unchanged/samefirst/unknown"
  else if config.valueType = .custom then
    refuseIf (config.customValueSize = 0) "ValueType::Custom requires customValueSize > 0"
    refuseIf (config.compareType = .exact && config.customFormula.isEmpty)
      "ValueType::Custom exact next scan requires customFormula"
    refuseIf (!config.compareType.ofBlocks)
      "ValueType::Custom next scan supports exact/changed/unchanged/samefirst/unknown"
  else
    refuseIf ((config.valueType = .string || config.valueType = .unicodeString
        || config.valueType = .byteArray || config.valueType = .binary)
        && (config.compareType = .greater || config.compareType = .less
          || config.compareType = .between || config.compareType = .increasedBy
          || config.compareType = .decreasedBy))
      "Text, byte array and binary scans support exact, changed, unchanged and same as first"

def checkDataFormat (requested config : ScanConfig) (previous : ScanResult) : Except String Unit :=
  match previous.format with
  | none => .ok ()
  | some (order, width) =>
    if requested.byteOrder = .unknown && scanNeedsByteOrder config && order != .unknown
        && order != config.byteOrder then
      .error "The next scan data byte order differs from the captured samples"
    else if requested.pointerWidth = 0 && scanNeedsPointerWidth config && width != 0
        && width != config.pointerWidth then
      .error "The next scan pointer width differs from the captured samples"
    else .ok ()

/-- The texts an exact search compares with. -/
def nextNeedles (iconv : String → List UInt8 → Option (List UInt8)) (config : ScanConfig) :
    Except String Needles :=
  if config.valueType = .string && config.compareType = .exact then
    (encodeStringBytes iconv config.stringValue config.stringEncoding).map fun string => { string }
  else if config.valueType = .unicodeString then
    (utf16Bytes iconv config.stringValue config.byteOrder).map fun unicode => { unicode }
  else .ok {}

/-- What a next scan has settled before it reads memory. -/
structure NextPlan where
  config : ScanConfig
  valueSize : ℕ
  inputSize : ℕ
  needles : Needles

def nextScanPlan (iconv : String → List UInt8 → Option (List UInt8))
    (description : TargetDescription) (disk : Disk) (requested : ScanConfig)
    (previous : ScanResult) : Except String NextPlan := do
  refuseIf previous.writeError "The previous scan has invalid backing files"
  refuseIf (previous.count != 0 && requested.valueType = .all && !previous.hasAllTypes)
    "All-type scan candidates are missing; start a fresh All-type scan"
  refuseIf (previous.count != 0 && previous.hasAllTypes && requested.valueType != .all
      && allCandidateFor requested.valueType == 0)
    "Select one of the All-type numeric types or start a fresh scan"
  let config ← targetScanConfig iconv description requested
  checkDataFormat requested config previous
  checkNextCompare iconv config
  let valueSize ← valueSizeForConfig iconv config
  let inputSize := if previous.hasAllTypes then 8 else valueSize
  refuseIf (previous.count > 0 && (previous.recordStride disk == 0
      || previous.recordStride disk != inputSize))
    ("next scan value size differs from the previous scan; "
      ++ "the search length must stay constant across scans")
  let needles ← nextNeedles iconv config
  return ⟨config, valueSize, inputSize, needles⟩

/-! ### A batch -/

/-- Rows a worker reads at once. -/
def nextBatchRows : ℕ := 4096

/-- A row a batch goes on with.  For an all-type scan `pending` are the candidates still to be
read, `read` those whose bytes are in `current`. -/
structure SelectedRow where
  index : ℕ
  address : UInt64
  pending : UInt8 := 0
  read : UInt8 := 0
  current : List UInt8 := []
  deriving Repr, DecidableEq

def selectRow (plan : NextPlan) (previousAll : Bool) (address : UInt64) (candidates : UInt8) :
    Option UInt8 :=
  let config := plan.config
  let all : Bool := config.valueType = .all
  if previousAll && !all && candidates &&& allCandidateFor config.valueType == 0 then none
  else if address < config.startAddress || address > config.stopAddress then none
  else if all then
    let fitting := allCandidatesFitting candidates (config.stopAddress - address).toNat
    if fitting == 0 then none else some fitting
  else if plan.valueSize - 1 > (config.stopAddress - address).toNat then none
  else some 0

def selectRows (plan : NextPlan) (previousAll : Bool) (batch : ReadBatch) (n : ℕ) :
    List SelectedRow :=
  (List.range n).filterMap fun i =>
    let address := batch.addrs.getD i 0
    (selectRow plan previousAll address (batch.candidates.getD i 0)).map fun pending =>
      { index := i, address, pending }

/-- The candidates left after a read of a width failed. -/
def dropWidth (width : ℕ) (pending : UInt8) : UInt8 :=
  allCandidateWidths.zipIdx.foldl
    (fun mask c => if c.1 = width then mask &&& ~~~UInt8.ofNat (2 ^ c.2) else mask) pending

def applyReads (width : ℕ) : List SelectedRow → List (Option (List UInt8)) → List SelectedRow
  | [], _ => []
  | row :: rows, results =>
    if allCandidateReadSize row.pending = width then
      match results with
      | some bytes :: rest =>
        { row with
          current := bytes.take width ++ row.current.drop width
          read := row.pending
          pending := 0 } :: applyReads width rows rest
      | none :: rest =>
        { row with pending := dropWidth width row.pending } :: applyReads width rows rest
      | [] => row :: applyReads width rows []
    else row :: applyReads width rows results

/-- The reads of an all-type scan: each row at its widest candidate, and again narrower where
that failed. -/
def readAllCandidates (target : ScanTarget) (rows : List SelectedRow) : List SelectedRow :=
  [8, 4, 2, 1].foldl
    (fun rows width =>
      let wanted := rows.filter fun row => allCandidateReadSize row.pending = width
      if wanted.isEmpty then rows
      else applyReads width rows (target.readMany (wanted.map SelectedRow.address) width))
    (rows.map fun row => { row with current := List.replicate 8 0 })

/-- Record `i` of a stream of records. -/
def recordAt (size : ℕ) (bytes : List UInt8) (i : ℕ) : List UInt8 :=
  (bytes.drop (i * size)).take size

section Scan

variable (iconv : String → List UInt8 → Option (List UInt8)) {σ : Type} (lua : FormulaEvaluator σ)
  (target : ScanTarget) (plan : NextPlan)

abbrev WorkerState (σ : Type) := (ScanResult × ResultDir) × σ

def emitRow (batch : ReadBatch) (out : WorkerState σ) (row : SelectedRow × Option (List UInt8)) :
    WorkerState σ :=
  match row.2 with
  | none => out
  | some current =>
    let old := recordAt plan.inputSize batch.oldVals row.1.index
    let first := recordAt plan.inputSize batch.firstVals row.1.index
    let (isMatch, st) := nextScanCompare iconv lua plan.config plan.valueSize current old first
      plan.needles out.2
    if isMatch then
      (out.1.1.addResult out.1.2 row.1.address current (first.take plan.valueSize) plan.valueSize,
        st)
    else (out.1, st)

def emitAllRow (batch : ReadBatch) (out : WorkerState σ) (row : SelectedRow) : WorkerState σ :=
  if row.read == 0 then out
  else
    let old := recordAt plan.inputSize batch.oldVals row.index
    let first := recordAt plan.inputSize batch.firstVals row.index
    let candidates := nextAllTypeCandidates plan.config row.read row.current old first
    if candidates == 0 then out
    else (out.1.1.addAllTypeResult out.1.2 row.address row.current first candidates, out.2)

/-- One batch of `n` rows. -/
def nextBatch (previousAll : Bool) (batch : ReadBatch) (n : ℕ) (out : WorkerState σ) :
    WorkerState σ :=
  let selected := selectRows plan previousAll batch n
  if plan.config.valueType = .all then
    (readAllCandidates target selected).foldl (emitAllRow plan batch) out
  else
    let results := target.readMany (selected.map SelectedRow.address) plan.valueSize
    (selected.zip results).foldl (emitRow iconv lua plan batch) out

/-- The rows `[idx, stop)` of the previous result, batch by batch. -/
def nextLoop (reader : ShardReader) (previousAll : Bool) (idx stop : ℕ) (out : WorkerState σ) :
    WorkerState σ :=
  if idx < stop then
    let n := min nextBatchRows (stop - idx)
    match reader.read idx n plan.inputSize previousAll with
    | none => (({ out.1.1 with writeError := true }, out.1.2), out.2)
    | some batch =>
      nextLoop reader previousAll (idx + n) stop
        (nextBatch iconv lua target plan previousAll batch n out)
  else out
termination_by stop - idx
decreasing_by
  simp only [nextBatchRows]
  omega

/-- A worker: a result of its own in `dir`, filled from a range of the previous rows. -/
def nextWorker (disk : Disk) (previous : ScanResult) (dir : String) (start stop : ℕ) :
    ScanResult × ResultDir :=
  let (r, files) := openDir disk dir true
  let (r, files) := r.setDataFormat files plan.config.byteOrder plan.config.pointerWidth
  let (r, files) := if plan.config.valueType = .all then r.enableAllTypeCandidates files
    else (r, files)
  let reader := ShardReader.create disk previous.shardLayout previous.hasAllTypes
  if !reader.ok then finalize { r with writeError := true } files
  else
    let out := nextLoop iconv lua target plan reader previous.hasAllTypes start stop
      ((r, files), lua.fresh)
    out.1.1.finalize out.1.2

/-! ### The scan -/

/-- Results below this many rows stay with one worker. -/
def kMTFloor : ℕ := 65536

/-- Workers of a scan over `total` rows; `threadCount` is the configured number. -/
def nextThreads (threadCount : ℤ) (total : ℕ) : ℕ :=
  let wanted : ℤ := if total < kMTFloor || !target.supportsConcurrentReads then 1
    else max 1 threadCount
  -- `std::min<int>` takes the row count to `int`
  let useful : ℤ := IntType.int32.cast (max 1 (total / nextBatchRows) : ℕ)
  (max 1 (min wanted useful)).toNat

/-- The rows of worker `t` of `nThreads`. -/
def nextSlice (total nThreads t : ℕ) : ℕ × ℕ :=
  let per := (total + nThreads - 1) / nThreads
  let start := min total (t * per)
  (start, min total (start + per))

/-- The scan after its checks; `resultDir` is the new directory it was given. -/
def runNextScan (disk : Disk) (threadCount : ℤ) (resultDir : String) (previous : ScanResult) :
    ScanResult × Disk :=
  let total := previous.count
  let results := resultsDir resultDir
  if total = 0 then
    let (r, files) := openDir disk results true
    let (r, files) := if plan.config.valueType = .all then r.enableAllTypeCandidates files
      else (r, files)
    let (r, files) := r.setDataFormat files plan.config.byteOrder plan.config.pointerWidth
    let (r, files) := r.finalize files
    (r, disk.put results files)
  else
    let nThreads := nextThreads target threadCount total
    if nThreads = 1 then
      let (r, files) := nextWorker iconv lua target plan disk previous results 0 total
      (r, disk.put results files)
    else
      let parts := (List.range nThreads).map fun t =>
        let (start, stop) := nextSlice total nThreads t
        nextWorker iconv lua target plan disk previous (workerDir resultDir t) start stop
      assembleShardedResult disk results parts

end Scan

/-- `MemoryScanner::nextScan`. -/
def nextScan (iconv : String → List UInt8 → Option (List UInt8)) {σ : Type}
    (lua : FormulaEvaluator σ) (target : ScanTarget) (disk : Disk) (threadCount : ℤ)
    (resultDir : String) (requested : ScanConfig) (previous : ScanResult) :
    Except String (ScanResult × Disk) := do
  let plan ← nextScanPlan iconv target.description disk requested previous
  return runNextScan iconv lua target plan disk threadCount resultDir previous

end CheatEngine
