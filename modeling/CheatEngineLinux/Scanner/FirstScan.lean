import CheatEngineLinux.Scanner.ScanBuffer
import CheatEngineLinux.Scanner.ScanShards

/-!
# The first scan

`MemoryScanner::firstScan`: the target's regions are filtered and clipped to the range of the
scan, split into chunks, and dealt out to workers in contiguous runs.  A chunk owns a run of
positions and is read a little further, so that a value across its end is found by the chunk
its first byte lies in.

Untouched pages of anonymous memory are left out where a value of zeros cannot match.

The scan is not cancelled and its target stays alive.
-/

namespace CheatEngine

open RecordFile ScanResult StridedScan

inductive MemType
  | priv
  | mapped
  | image
  deriving Repr, DecidableEq

structure MemoryRegion where
  base : UInt64
  size : ℕ
  read : Bool := true
  write : Bool := true
  exec : Bool := false
  type : MemType := .priv
  committed : Bool := true
  deriving Repr, DecidableEq

/-- The target of a first scan.  `read address size` are the bytes that could be read, none
where the call fails. -/
structure FirstScanTarget where
  description : TargetDescription := {}
  remote : Bool := false
  supportsConcurrentReads : Bool := true
  regions : List MemoryRegion
  read : UInt64 → ℕ → List UInt8
  residentRanges : UInt64 → ℕ → List (UInt64 × UInt64)

/-- What a scan takes from the machine it runs on. -/
structure ScanHost where
  chunkBytes : ℕ := 131072
  simd : SimdMode := .avx2
  pageSize : ℕ := 4096
  pagemapDisabled : Bool := false
  threadCount : ℤ := 1
  deriving Repr, DecidableEq

/-! ### Regions -/

def protAllowed (m : ProtMatch) (has : Bool) : Bool :=
  m = .any || decide (m = .yes) == has

def memoryTypeAllowed (config : ScanConfig) : MemType → Bool
  | .priv => config.scanPrivate
  | .image => config.scanImage
  | .mapped => config.scanMapped

/-- Positions of a scan are multiples of this, counted from address 0. -/
def scanGrid (config : ScanConfig) : ℕ :=
  match config.valueType with
  | .byte | .int16 | .int32 | .int64 | .float | .double | .pointer | .all => max config.alignment 1
  | .unicodeString => 2
  | _ => 1

def clipRegion (config : ScanConfig) (r : MemoryRegion) : Except String (Option MemoryRegion) :=
  if !r.committed || !r.read || !protAllowed config.writableMatch r.write
      || !protAllowed config.executableMatch r.exec || !memoryTypeAllowed config r.type
      || r.size = 0 then .ok none
  else if r.size - 1 > sizeMax - r.base.toNat then
    .error "Target memory region overflows the address space"
  else
    let scanStart := max r.base.toNat config.startAddress.toNat
    let add := if scanStart % scanGrid config = 0 then 0
      else scanGrid config - scanStart % scanGrid config
    if scanStart > sizeMax - add then .ok none
    else
      let scanStart := scanStart + add
      if scanStart > config.stopAddress.toNat || scanStart - r.base.toNat ≥ r.size then .ok none
      else
        let remaining := r.size - (scanStart - r.base.toNat)
        let distance := config.stopAddress.toNat - scanStart
        .ok (some { r with
          base := UInt64.ofNat scanStart
          size := if distance < remaining - 1 then distance + 1 else remaining })

def clipRegions (config : ScanConfig) : List MemoryRegion → Except String (List MemoryRegion)
  | [] => .ok []
  | r :: rest => do
    let clipped ← clipRegion config r
    let rest ← clipRegions config rest
    return clipped.toList ++ rest

/-- The bytes of all regions, where their number is a `size_t`. -/
def totalSpan : ℕ → List MemoryRegion → Except String ℕ
  | total, [] => .ok total
  | total, r :: rest =>
    if r.size > sizeMax - total then .error "Total scan span exceeds the frontend size limit"
    else totalSpan (total + r.size) rest

/-! ### Chunks -/

structure Chunk where
  base : UInt64
  owned : ℕ
  readLen : ℕ
  deriving Repr, DecidableEq

/-- The positions a chunk owns: whole strides, about the host's chunk size. -/
def ownedLen (host : ScanHost) (config : ScanConfig) : ℕ :=
  let alignment := max 1 config.alignment
  let owned := host.chunkBytes / alignment * alignment
  if owned = 0 then alignment else owned

def chunksOf (owned overlap : ℕ) (range : UInt64 × ℕ) : List Chunk :=
  (strideOffsets range.2 owned).map fun offset =>
    { base := range.1 + UInt64.ofNat offset
      owned := ownedAt owned range.2 offset
      readLen := readLenAt owned overlap range.2 offset }

/-- Regions below this size are read whole. -/
def kPagemapMinRegion : ℕ := 256 * 1024

/-- The ranges of a region that are read; with `skip` only what is resident of it. -/
def scanRanges (target : FirstScanTarget) (skip : Bool) (region : MemoryRegion) :
    Except String (List (UInt64 × ℕ)) :=
  if skip && region.type = .priv && decide (region.size ≥ kPagemapMinRegion)
      && decide (region.size ≤ sizeMax - region.base.toNat) then
    let resident := target.residentRanges region.base region.size
    if resident.any fun range => range.1 < region.base || range.2 ≤ range.1
        || range.2.toNat > region.base.toNat + region.size then
      .error "Resident memory span exceeds its target region"
    else .ok (resident.map fun range => (range.1, (range.2 - range.1).toNat))
  else .ok [(region.base, region.size)]

def buildChunks (target : FirstScanTarget) (skip : Bool) (owned overlap : ℕ) :
    List MemoryRegion → Except String (List Chunk)
  | [] => .ok []
  | region :: rest => do
    let ranges ← scanRanges target skip region
    let chunks ← buildChunks target skip owned overlap rest
    return ranges.flatMap (chunksOf owned overlap) ++ chunks

def ownedBytes (chunks : List Chunk) : ℕ := (chunks.map Chunk.owned).sum

/-! ### Workers -/

def takeShare (perThread : ℕ) : ℕ → List Chunk → List Chunk × List Chunk
  | _, [] => ([], [])
  | acc, c :: rest =>
    if acc < perThread then
      let (run, left) := takeShare perThread (acc + c.owned) rest
      (c :: run, left)
    else ([], c :: rest)

/-- Contiguous runs of chunks; the last worker takes what is left. -/
def partitionChunks (perThread : ℕ) : ℕ → List Chunk → List (List Chunk)
  | 0, _ => []
  | 1, chunks => [chunks]
  | n + 2, chunks =>
    let (run, left) := takeShare perThread 0 chunks
    run :: partitionChunks perThread (n + 1) left

def firstThreads (target : FirstScanTarget) (host : ScanHost) (chunks : ℕ) : ℕ :=
  let maxThreads : ℤ := if target.supportsConcurrentReads then host.threadCount else 1
  -- the number of chunks is taken to `int`
  (min maxThreads (max 1 (IntType.int32.cast chunks))).toNat

/-- A share of the bytes, rounded up. -/
def perThreadBytes (total nThreads : ℕ) : ℕ :=
  max 1 ((total + nThreads - 1) % (sizeMax + 1) / nThreads)

section Scan

variable (iconv : String → List UInt8 → Option (List UInt8)) {σ : Type} (lua : FormulaEvaluator σ)
  (target : FirstScanTarget) (host : ScanHost) (config : ScanConfig)

/-- Whether untouched pages can be left out: no value lies across two pages and a window of
zeros holds no match. -/
def skipNonResident (maxMatchSize : ℕ) : Bool :=
  let bytewise := config.valueType = .string || config.valueType = .unicodeString
    || config.valueType = .byteArray || config.valueType = .binary
  let stride := if bytewise then 1 else max 1 config.alignment
  let cannotStraddle := decide (host.pageSize > 0) && decide (stride ≥ maxMatchSize)
    && decide (host.pageSize % stride = 0)
  if !host.pagemapDisabled && cannotStraddle && config.valueType != .custom then
    let zeroWindow := List.replicate (max (maxMatchSize * 4) 64) 0
    (scanRegion iconv lua host.simd config zeroWindow zeroWindow.length lua.fresh).1.isEmpty
  else false

/-- The row of a match; it is its own first value. -/
def hitRow (base : UInt64) (hit : Hit) : ScanRow :=
  ⟨base + UInt64.ofNat hit.offset, hit.value, hit.value, hit.mask⟩

def scanChunk (out : (ScanResult × ResultDir) × σ) (c : Chunk) : (ScanResult × ResultDir) × σ :=
  let buf := target.read c.base c.readLen
  if buf.isEmpty then out
  else
    let (hits, st) := scanRegion iconv lua host.simd config buf (min buf.length c.owned) out.2
    ((hits.map (hitRow c.base)).foldl (addRow (config.valueType = .all)) out.1, st)

def firstWorker (disk : Disk) (dir : String) (chunks : List Chunk) : ScanResult × ResultDir :=
  let (r, files) := openDir disk dir false
  let (r, files) := r.setDataFormat files config.byteOrder config.pointerWidth
  let (r, files) := if config.valueType = .all then r.enableAllTypeCandidates files else (r, files)
  let out := chunks.foldl (scanChunk iconv lua target host config) ((r, files), lua.fresh)
  out.1.1.finalize out.1.2

def emptyFirstScan (disk : Disk) (resultDir : String) (all : Bool) : ScanResult × Disk :=
  let (r, files) := openDir disk (resultsDir resultDir) false
  let (r, files) := r.setDataFormat files config.byteOrder config.pointerWidth
  let (r, files) := if all then r.enableAllTypeCandidates files else (r, files)
  let (r, files) := r.finalize files
  (r, disk.put (resultsDir resultDir) files)

def runFirstScan (disk : Disk) (resultDir : String) (chunks : List Chunk) : ScanResult × Disk :=
  let nThreads := firstThreads target host chunks.length
  let runs := partitionChunks (perThreadBytes (ownedBytes chunks) nThreads) nThreads chunks
  let parts := (List.range nThreads).map fun t =>
    firstWorker iconv lua target host config disk (workerDir resultDir t) (runs.getD t [])
  assembleShardedResult disk (resultsDir resultDir) parts

end Scan

/-! ### The scan -/

/-- Compares a first scan has no earlier value for, and types with fewer compares. -/
def checkFirstCompare (iconv : String → List UInt8 → Option (List UInt8)) (config : ScanConfig) :
    Except String Unit := do
  refuseIf config.compareType.relative
    "This compare needs a previous scan: run a first scan (Exact or Unknown initial value) first"
  if config.valueType = .grouped then
    refuseIf config.groupedTerms.isEmpty
      "ValueType::Grouped requires grouped terms (use parseGrouped)"
    let size ← config.groupedValueSize iconv
    refuseIf (size = 0) "ValueType::Grouped has invalid grouped terms"
    refuseIf (config.compareType != .exact && config.compareType != .unknown)
      "ValueType::Grouped first scan supports only Exact or Unknown compare"
  else if config.valueType = .custom then
    refuseIf (config.customValueSize = 0) "ValueType::Custom requires customValueSize > 0"
    refuseIf (config.compareType = .exact && config.customFormula.isEmpty)
      "ValueType::Custom exact scan requires customFormula"
    refuseIf (config.compareType != .exact && config.compareType != .unknown)
      "ValueType::Custom first scan supports only Exact or Unknown compare"
  else .ok ()

/-- What a first scan has settled before it looks at the regions' bytes. -/
structure FirstPlan where
  config : ScanConfig
  regions : List MemoryRegion
  total : ℕ

def firstScanPlan (iconv : String → List UInt8 → Option (List UInt8)) (target : FirstScanTarget)
    (requested : ScanConfig) : Except String FirstPlan := do
  let config ← targetScanConfig iconv target.description requested
  checkFirstCompare iconv config
  refuseIf (target.remote && target.regions.isEmpty)
    ("The target reported no memory map; for a GDB stub supply explicit guest ranges "
      ++ "before scanning")
  let regions ← clipRegions config target.regions
  let total ← totalSpan 0 regions
  return ⟨config, regions, total⟩

/-- `MemoryScanner::firstScan`; `resultDir` is the new directory it was given. -/
def firstScan (iconv : String → List UInt8 → Option (List UInt8)) {σ : Type}
    (lua : FormulaEvaluator σ) (target : FirstScanTarget) (host : ScanHost) (disk : Disk)
    (resultDir : String) (requested : ScanConfig) : Except String (ScanResult × Disk) := do
  let plan ← firstScanPlan iconv target requested
  if plan.total = 0 then
    return emptyFirstScan plan.config disk resultDir (plan.config.valueType = .all)
  else
    let valueSize ← valueSizeForConfig iconv plan.config
    let maxMatchSize := max 1 valueSize
    let skip := skipNonResident iconv lua host plan.config maxMatchSize
    let chunks ← buildChunks target skip (ownedLen host plan.config) (maxMatchSize - 1) plan.regions
    -- a scan of all types forgets its masks here
    if ownedBytes chunks = 0 then return emptyFirstScan plan.config disk resultDir false
    else return runFirstScan iconv lua target host plan.config disk resultDir chunks

end CheatEngine
