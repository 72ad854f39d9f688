import CheatEngineLinux.Library.RecordFile

/-!
# Scan results on disk

`ScanResult` (`scanner/memory_scanner.cpp`) keeps a scan's matches in parallel streams: a
4-byte offset per match from the base of its frame, the value, the value of the first scan
and, for scans of all types, a mask of candidate types.  A result is written by one worker
and read from its own directory or through a manifest of worker directories.

* `ResultDir` / `Disk` — the files the class touches; every write succeeds;
* `addResult`, `addAllTypeResult`, `flush`, `finalize` — the writer;
* `loadFrames`, `loadShards`, `loadDataFormat` — opening what is on disk;
* `address`, `value`, `firstValue`, `forEach` — the readers of one result;
* `ShardReader.read` — the reader of a next scan's workers.
-/

namespace CheatEngine

open RecordFile

/-- `SIZE_MAX` and `UINTPTR_MAX`. -/
def sizeMax : ℕ := 2 ^ 64 - 1

inductive ByteOrder
  | unknown
  | little
  | big
  deriving Repr, DecidableEq

/-- The files of a result directory; `none` where there is no such file. -/
structure ResultDir where
  offsets : Option (List UInt8) := none
  values : Option (List UInt8) := none
  firstValues : Option (List UInt8) := none
  frames : Option (List UInt8) := none
  allTypes : Option (List UInt8) := none
  shards : Option String := none
  format : Option String := none
  deriving Repr, DecidableEq

/-- The directories by path. -/
abbrev Disk := String → ResultDir

/-- A run of matches within `2 ^ 32` of `base`: local indices `[start, start + count)`. -/
structure AddressFrame where
  base : UInt64
  start : ℕ
  count : ℕ
  deriving Repr, DecidableEq

/-- A directory of a result: global indices `[cum, cum + count)`. -/
structure Shard where
  dir : String
  count : ℕ
  cum : ℕ
  frames : List AddressFrame
  deriving Repr, DecidableEq

/-- The state of a `ScanResult`.  `writing` stands for the open descriptors of the offsets,
the values and (with `storeFirst`) the first values. -/
structure ScanResult where
  dir : String
  count : ℕ := 0
  valueSize : ℕ := 0
  format : Option (ByteOrder × ℕ) := none
  hasAllTypes : Bool := false
  writeError : Bool := false
  storeFirst : Bool := true
  finalized : Bool := true
  writing : Bool := false
  allTypeOpen : Bool := false
  offsetBuf : List UInt32 := []
  valueBuf : List UInt8 := []
  firstValueBuf : List UInt8 := []
  allTypeBuf : List UInt8 := []
  curFrameBase : UInt64 := 0
  curFrameCount : ℕ := 0
  haveFrame : Bool := false
  frames : List (UInt64 × ℕ) := []
  shards : List Shard := []
  deriving Repr, DecidableEq

/-! ### Writing -/

namespace ScanResult

/-- A result in a directory that holds none yet. -/
def create (dir : String) (storeFirst : Bool) (files : ResultDir) : ScanResult × ResultDir :=
  ({ dir, storeFirst, finalized := false, writing := true },
    { files with
      offsets := some []
      values := some []
      firstValues := if storeFirst then some [] else files.firstValues })

/-- Write the buffers out. -/
def flush (r : ScanResult) (files : ResultDir) : ScanResult × ResultDir :=
  if r.offsetBuf.isEmpty then (r, files)
  else
    let badMasks := r.hasAllTypes
      && (!r.allTypeOpen || r.allTypeBuf.length != r.offsetBuf.length)
    ({ r with
        writeError := r.writeError || badMasks
        offsetBuf := []
        valueBuf := []
        firstValueBuf := []
        allTypeBuf := [] },
      { files with
        offsets := if r.writing
          then files.offsets.map (· ++ r.offsetBuf.flatMap fun o => leBytes 4 o.toNat)
          else files.offsets
        values := if r.writing then files.values.map (· ++ r.valueBuf) else files.values
        firstValues := if r.writing && r.storeFirst
          then files.firstValues.map (· ++ r.firstValueBuf) else files.firstValues
        allTypes := if r.hasAllTypes && !badMasks
          then files.allTypes.map (· ++ r.allTypeBuf) else files.allTypes })

/-- Close the open frame and begin one at `addr`, where the open one does not reach. -/
def openFrame (r : ScanResult) (addr : UInt64) : ScanResult :=
  if !r.haveFrame || addr < r.curFrameBase || addr - r.curFrameBase ≥ 0x100000000 then
    { r with
      frames := if r.haveFrame then r.frames ++ [(r.curFrameBase, r.curFrameCount)] else r.frames
      curFrameBase := addr
      curFrameCount := 0
      haveFrame := true }
  else r

/-- The checks of `addResult`: a size that is zero or not the size of the rows before, or a
row of an all-type result without its mask, spoils the result. -/
def refuses (r : ScanResult) (valueSize : ℕ) : Bool :=
  r.finalized || r.writeError || valueSize == 0
    || (r.valueSize != 0 && valueSize != r.valueSize)
    || (r.hasAllTypes && (valueSize != 8 || r.allTypeBuf.length != r.offsetBuf.length + 1))

/-- Add a match; `value` and `firstValue` are the `valueSize` bytes at the two pointers. -/
def addResult (r : ScanResult) (files : ResultDir) (addr : UInt64)
    (value firstValue : List UInt8) (valueSize : ℕ) : ScanResult × ResultDir :=
  if r.refuses valueSize then ({ r with writeError := true }, files)
  else
    let r := r.openFrame addr
    let r :=
      { r with
        offsetBuf := r.offsetBuf ++ [(addr - r.curFrameBase).toUInt32]
        curFrameCount := r.curFrameCount + 1
        valueBuf := r.valueBuf ++ value
        firstValueBuf := if r.storeFirst then r.firstValueBuf ++ firstValue else r.firstValueBuf
        valueSize := valueSize
        count := r.count + 1 }
    if r.offsetBuf.length ≥ 8192 then r.flush files else (r, files)

/-- A mask without a type, or with a bit that is no type. -/
def badMask (mask : UInt8) : Bool := mask == 0 || mask &&& 0xc0 != 0

/-- Begin the stream of masks; the file must be new. -/
def enableAllTypeCandidates (r : ScanResult) (files : ResultDir) : ScanResult × ResultDir :=
  if r.hasAllTypes then (r, files)
  else if r.finalized || r.count != 0 then ({ r with writeError := true }, files)
  else if files.allTypes.isSome then
    ({ r with hasAllTypes := true, writeError := true }, files)
  else ({ r with hasAllTypes := true, allTypeOpen := true }, { files with allTypes := some [] })

def addAllTypeResult (r : ScanResult) (files : ResultDir) (addr : UInt64)
    (value firstValue : List UInt8) (mask : UInt8) : ScanResult × ResultDir :=
  let (r, files) := r.enableAllTypeCandidates files
  if badMask mask || r.finalized || r.writeError then ({ r with writeError := true }, files)
  else addResult { r with allTypeBuf := r.allTypeBuf ++ [mask] } files addr value firstValue 8

/-- Give the runs of a frame table their local indices. -/
def placeFrames : ℕ → List (UInt64 × ℕ) → List AddressFrame
  | _, [] => []
  | start, (base, count) :: rest => ⟨base, start, count⟩ :: placeFrames (start + count) rest

/-- Close the files; the directory becomes the result's one shard. -/
def finalize (r : ScanResult) (files : ResultDir) : ScanResult × ResultDir :=
  if r.finalized then (r, files)
  else
    let (r, files) := r.flush files
    let frames := if r.haveFrame then r.frames ++ [(r.curFrameBase, r.curFrameCount)] else r.frames
    let files :=
      if r.writing && !frames.isEmpty then
        { files with
          frames := some (frames.flatMap fun f => leBytes 8 f.1.toNat ++ leBytes 8 f.2) }
      else files
    ({ r with
        frames := frames
        haveFrame := false
        allTypeOpen := false
        writing := false
        shards := [⟨r.dir, r.count, 0, placeFrames 0 frames⟩]
        finalized := true }, files)

/-- The text of `format.txt`. -/
def formatText (order : ByteOrder) (width : ℕ) : String :=
  let number := match order with
    | .unknown => 0
    | .little => 1
    | .big => 2
  "CE_SCAN_FORMAT 1 " ++ toString number ++ " " ++ toString width ++ "\n"

/-- Record the sample format beside the streams. -/
def setDataFormat (r : ScanResult) (files : ResultDir) (order : ByteOrder) (width : ℕ) :
    ScanResult × ResultDir :=
  if width != 0 && width != 4 && width != 8 then ({ r with writeError := true }, files)
  else ({ r with format := some (order, width) },
    { files with format := some (formatText order width) })

end ScanResult

/-! ### Opening -/

/-- `std::from_chars` of a whole token to `size_t`: decimal digits only. -/
def fromChars (token : List Char) : Option ℕ :=
  if token.isEmpty || !token.all Char.isDigit then none
  else
    let n := Nat.ofDigitChars 10 token 0
    if n > sizeMax then none else some n

/-- Decode `frames.bin`; a run without matches, or one too long to count, spoils the table. -/
def decodeFrames : ℕ → List (List UInt8) → Option (List AddressFrame)
  | _, [] => some []
  | start, raw :: rest =>
    let count := leNat (raw.drop 8)
    if count = 0 || decide (count > sizeMax - start) then none
    else (decodeFrames (start + count) rest).map
      (⟨UInt64.ofNat (leNat (raw.take 8)), start, count⟩ :: ·)

def loadFrames (files : ResultDir) : List AddressFrame :=
  match files.frames with
  | none => []
  | some bytes =>
    if bytes.length < 16 || bytes.length % 16 != 0 then []
    else (decodeFrames 0 (records 16 (bytes.length / 16) bytes)).getD []

/-- What opening `all_types.bin` gives. -/
inductive Candidates
  | missing
  | invalid
  | opened (masks : List UInt8)
  deriving Repr, DecidableEq

def openAllTypeCandidates (files : ResultDir) (count : ℕ) (validate : Bool) : Candidates :=
  match files.allTypes with
  | none => .missing
  | some masks =>
    if masks.length != count then .invalid
    else if validate && masks.any ScanResult.badMask then .invalid
    else .opened masks

/-- The frame table covers exactly `count` rows. -/
def framesCover (frames : List AddressFrame) (count : ℕ) : Bool :=
  match frames.getLast? with
  | none => false
  | some f => decide (f.start ≤ count) && f.count == count - f.start

/-- What `loadShards` has put together so far. -/
structure Loading where
  shards : List Shard := []
  count : ℕ := 0
  valueSize : ℕ := 0
  candidateFormat : Option Bool := none
  deriving Repr, DecidableEq

/-- Check the files of one directory and append it; `false` rejects the result. -/
def Loading.addShard (l : Loading) (disk : Disk) (d : String) (expected : Option ℕ) :
    Bool × Loading :=
  let files := disk d
  match files.offsets with
  | none => (false, l)
  | some offsets =>
    let c := offsets.length / 4
    if offsets.length % 4 != 0 || decide (c > sizeMax) then (false, l)
    else if expected.any (· != c) || decide (c > sizeMax - l.count) then (false, l)
    else
      let frames := loadFrames files
      if c != 0 && !framesCover frames c then (false, l)
      else
        match files.values with
        | none => (false, l)
        | some values =>
          if (if c = 0 then values.length != 0
              else values.length == 0 || values.length % c != 0
                || decide (values.length / c > sizeMax)) then (false, l)
          else
            let stride := if c = 0 then 0 else values.length / c
            let candidates := openAllTypeCandidates files c true
            if candidates = .invalid then (false, l)
            else
              let all := candidates != .missing
              if (all && c != 0 && stride != 8) || l.candidateFormat.any (· != all) then (false, l)
              else
                let l := { l with candidateFormat := some all }
                if stride != 0 && l.valueSize != 0 && stride != l.valueSize then (false, l)
                else if files.firstValues.any (·.length != values.length) then (false, l)
                else (true,
                  { l with
                    valueSize := if stride = 0 then l.valueSize else stride
                    shards := l.shards ++ [⟨d, c, l.count, frames⟩]
                    count := l.count + c })

def parseManifestLine (line : List Char) : Option (ℕ × String) :=
  match line.dropWhile (· != ' ') with
  | [] => none
  | _ :: rest =>
    if rest.isEmpty then none
    else (fromChars (line.takeWhile (· != ' '))).map fun c => (c, String.ofList rest)

/-- The lines of a manifest until one is rejected. -/
def Loading.addLines (disk : Disk) : Loading → List (List Char) → Bool × Loading
  | l, [] => (true, l)
  | l, line :: rest =>
    if line.isEmpty then addLines disk l rest
    else
      match parseManifestLine line with
      | none => (false, l)
      | some (c, d) =>
        match l.addShard disk d (some c) with
        | (false, l) => (false, l)
        | (true, l) => addLines disk l rest

/-- The tokens of a text between white space (`operator>>`). -/
def tokens (text : List Char) : List (List Char) :=
  (text.splitOnP fun c => c == ' ' || c == '\n' || c == '\t' || c == '\r'
    || c == '\x0b' || c == '\x0c').filter fun t => !t.isEmpty

namespace ScanResult

/-- The shards of a directory: those of its manifest, or the directory itself. -/
def loadShards (disk : Disk) (dir : String) : ScanResult :=
  let (ok, l) : Bool × Loading :=
    match (disk dir).shards with
    | some text => Loading.addLines disk {} (text.toList.splitOn '\n')
    | none => if (disk dir).offsets.isSome then Loading.addShard {} disk dir none else (true, {})
  let r : ScanResult :=
    { dir, hasAllTypes := l.candidateFormat.getD false }
  if ok then { r with shards := l.shards, count := l.count, valueSize := l.valueSize }
  else { r with writeError := true }

/-- `format.txt`: absent, or four words in at most 64 bytes. -/
def loadDataFormat (r : ScanResult) (disk : Disk) : ScanResult :=
  match (disk r.dir).format with
  | none => r
  | some text =>
    if text.utf8ByteSize = 0 || decide (text.utf8ByteSize > 64) then { r with writeError := true }
    else
      match tokens text.toList with
      | [magic, version, order, width] =>
        match fromChars version, fromChars order, fromChars width with
        | some version, some order, some width =>
          if magic != "CE_SCAN_FORMAT".toList || version != 1 || decide (order > 2)
              || (width != 0 && width != 4 && width != 8) then { r with writeError := true }
          else
            let order := if order = 0 then ByteOrder.unknown
              else if order = 1 then .little else .big
            { r with format := some (order, width) }
        | _, _, _ => { r with writeError := true }
      | _ => { r with writeError := true }

/-- The constructor: read what the directory holds, or begin a new result in it. -/
def openDir (disk : Disk) (dir : String) (storeFirst : Bool) : ScanResult × ResultDir :=
  if (disk dir).shards.isSome || (disk dir).offsets.isSome then
    ({ loadDataFormat (loadShards disk dir) disk with storeFirst }, disk dir)
  else create dir storeFirst (disk dir)

/-! ### Reading -/

/-- The address of local index `i` with the stored offset. -/
def reconstruct (frames : List AddressFrame) (i : ℕ) (offset : UInt32) : UInt64 :=
  match frames.find? fun f => decide (f.start ≤ i) && decide (i - f.start < f.count) with
  | some f =>
    if offset.toUInt64 ≤ 0xFFFFFFFFFFFFFFFF - f.base then f.base + offset.toUInt64 else 0
  | none => 0

def shardAt (r : ScanResult) (i : ℕ) : Option Shard :=
  r.shards.find? fun s => decide (s.cum ≤ i) && decide (i < s.cum + s.count)

def offsetOf (bytes : List UInt8) : UInt32 := UInt32.ofNat (leNat bytes)

def address (r : ScanResult) (disk : Disk) (i : ℕ) : UInt64 :=
  match r.shardAt i with
  | none => 0
  | some s =>
    match (disk s.dir).offsets.bind (pread · 4 ((i - s.cum) * 4)) with
    | none => 0
    | some bytes => reconstruct s.frames (i - s.cum) (offsetOf bytes)

def value (r : ScanResult) (disk : Disk) (i valueSize : ℕ) : List UInt8 :=
  let zeros := List.replicate valueSize 0
  if r.writeError || r.valueSize == 0 || decide (valueSize > r.valueSize) then zeros
  else
    match r.shardAt i with
    | none => zeros
    | some s =>
      ((disk s.dir).values.bind (pread · valueSize ((i - s.cum) * r.valueSize))).getD zeros

def firstValue (r : ScanResult) (disk : Disk) (i valueSize : ℕ) : List UInt8 :=
  let zeros := List.replicate valueSize 0
  if r.writeError || r.valueSize == 0 || decide (valueSize > r.valueSize) then zeros
  else
    match r.shardAt i with
    | none => zeros
    | some s =>
      match (disk s.dir).firstValues with
      | none => r.value disk i valueSize
      | some bytes => (pread bytes valueSize ((i - s.cum) * r.valueSize)).getD zeros

def allTypeCandidates (r : ScanResult) (disk : Disk) (i : ℕ) : UInt8 :=
  match r.shardAt i with
  | none => 0
  | some s =>
    if !r.hasAllTypes then 0
    else
      match openAllTypeCandidates (disk s.dir) s.count false with
      | .opened masks =>
        let mask := masks.getD (i - s.cum) 0
        if badMask mask then 0 else mask
      | _ => 0

/-- The batch of `forEach`. -/
def batchRows : ℕ := 4096

/-- The rows of one shard from local index `i` on, batch by batch; `offsets` and `values` are
what is left of the two files. -/
def streamShard (s : Shard) (recordSize valueSize i : ℕ) (offsets values : List UInt8) :
    List (UInt64 × List UInt8) :=
  if i < s.count then
    let n := min (s.count - i) batchRows
    match pread offsets (n * 4) 0, pread values (n * recordSize) 0 with
    | some offs, some vals =>
      (List.range n).map (fun j =>
          (reconstruct s.frames (i + j) (offsetOf ((offs.drop (j * 4)).take 4)),
            (vals.drop (j * recordSize)).take valueSize))
        ++ streamShard s recordSize valueSize (i + n) (offsets.drop (n * 4))
          (values.drop (n * recordSize))
    | _, _ => []
  else []
termination_by s.count - i
decreasing_by
  simp only [batchRows]
  omega

def shardRows (disk : Disk) (recordSize valueSize : ℕ) (s : Shard) : List (UInt64 × List UInt8) :=
  if s.count = 0 then []
  else
    match (disk s.dir).offsets, (disk s.dir).values with
    | some offsets, some values => streamShard s recordSize valueSize 0 offsets values
    | _, _ => []

/-- `std::length_error`. -/
inductive StdError
  | lengthError
  deriving Repr, DecidableEq

/-- The calls `forEach` makes.  Its batch buffer is a vector, which holds at most
`PTRDIFF_MAX` bytes. -/
def forEach (r : ScanResult) (disk : Disk) (valueSize : ℕ) :
    Except StdError (List (UInt64 × List UInt8)) :=
  if r.writeError || valueSize == 0 || decide (valueSize > r.valueSize) then .ok []
  else if r.valueSize > sizeMax / batchRows then .ok []
  else if batchRows * r.valueSize > 2 ^ 63 - 1 then .error .lengthError
  else .ok (r.shards.flatMap (shardRows disk r.valueSize valueSize))

def shardLayout (r : ScanResult) : List (String × ℕ) :=
  if !r.shards.isEmpty then r.shards.map fun s => (s.dir, s.count)
  else if r.count > 0 then [(r.dir, r.count)]
  else []

/-- The manifest of a scan's worker results. -/
def manifestText (parts : List (String × ℕ)) : String :=
  String.ofList (parts.flatMap fun p => (toString p.2).toList ++ ' ' :: p.1.toList ++ ['\n'])

end ScanResult

/-! ### The reader of a next scan's workers -/

/-- A shard's files with its frame table. -/
structure ReaderShard where
  offsets : Option (List UInt8)
  values : Option (List UInt8)
  firstValues : Option (List UInt8)
  candidates : Option (List UInt8)
  count : ℕ
  cum : ℕ
  frames : List AddressFrame
  deriving Repr, DecidableEq

structure ShardReader where
  shards : List ReaderShard
  ok : Bool
  deriving Repr, DecidableEq

structure ReadBatch where
  addrs : List UInt64 := []
  oldVals : List UInt8 := []
  firstVals : List UInt8 := []
  candidates : List UInt8 := []
  deriving Repr, DecidableEq

namespace ShardReader

def openShard (files : ResultDir) (count cum : ℕ) (all : Bool) : ReaderShard where
  offsets := files.offsets
  values := files.values
  firstValues := files.firstValues
  candidates :=
    if all then
      match openAllTypeCandidates files count false with
      | .opened masks => some masks
      | _ => none
    else none
  count := count
  cum := cum
  frames := loadFrames files

/-- Whether a shard's files can be read. -/
def shardOk (s : ReaderShard) (all : Bool) : Bool :=
  (!all || s.candidates.isSome) && s.offsets.isSome && s.values.isSome
    && (s.count == 0 || framesCover s.frames s.count)

def openFrom (disk : Disk) (all : Bool) : ℕ → List (String × ℕ) → List ReaderShard
  | _, [] => []
  | cum, (dir, count) :: rest =>
    openShard (disk dir) count cum all :: openFrom disk all (cum + count) rest

/-- The constructor. -/
def create (disk : Disk) (layout : List (String × ℕ)) (all : Bool) : ShardReader :=
  let shards := openFrom disk all 0 layout
  ⟨shards, shards.all (shardOk · all)⟩

/-- Decode offsets from local index `i` on; `frames` are the frame the index is in and those
behind it. -/
def decodeOffsets : List AddressFrame → ℕ → List UInt32 → Option (List UInt64)
  | _, _, [] => some []
  | frames, i, o :: rest =>
    match frames.dropWhile fun f => decide (f.start + f.count ≤ i) with
    | [] => none
    | f :: fs =>
      if o.toUInt64 > 0xFFFFFFFFFFFFFFFF - f.base then none
      else (decodeOffsets (f :: fs) (i + 1) rest).map ((f.base + o.toUInt64) :: ·)

def readFirst (s : ReaderShard) (i take valueSize : ℕ) (oldVals : List UInt8) :
    Option (List UInt8) :=
  match s.firstValues with
  | none => some oldVals
  | some bytes => pread bytes (take * valueSize) (i * valueSize)

/-- Masks, where the caller has a buffer for them; a mask without a type fails the read. -/
def readCandidates (s : ReaderShard) (i take : ℕ) (wantCandidates : Bool) : Option (List UInt8) :=
  if wantCandidates then
    (s.candidates.bind (pread · take i)).filter fun masks => !masks.any ScanResult.badMask
  else some []

/-- `take` rows of one shard from local index `i` on. -/
def readShard (s : ReaderShard) (i take valueSize : ℕ) (wantCandidates : Bool) :
    Option ReadBatch := do
  let offs ← s.offsets.bind (pread · (take * 4) (i * 4))
  let addrs ← decodeOffsets s.frames i ((records 4 take offs).map ScanResult.offsetOf)
  let oldVals ← s.values.bind (pread · (take * valueSize) (i * valueSize))
  let firstVals ← readFirst s i take valueSize oldVals
  let candidates ← readCandidates s i take wantCandidates
  return { addrs, oldVals, firstVals, candidates }

def shardOf (shards : List ReaderShard) (i : ℕ) : Option ReaderShard :=
  shards.find? fun s => decide (s.cum ≤ i) && decide (i < s.cum + s.count)

/-- Read `n` rows at global index `i`, shard by shard. -/
def read (reader : ShardReader) (i n valueSize : ℕ) (wantCandidates : Bool) : Option ReadBatch :=
  if n = 0 then some {}
  else
    match _hs : shardOf reader.shards i with
    | none => none
    | some s =>
      let take := min (s.count - (i - s.cum)) n
      match readShard s (i - s.cum) take valueSize wantCandidates with
      | none => none
      | some b =>
        (read reader (i + take) (n - take) valueSize wantCandidates).map fun rest =>
          { addrs := b.addrs ++ rest.addrs
            oldVals := b.oldVals ++ rest.oldVals
            firstVals := b.firstVals ++ rest.firstVals
            candidates := b.candidates ++ rest.candidates }
termination_by n
decreasing_by
  have h := List.find?_some _hs
  simp only [Bool.and_eq_true, decide_eq_true_eq] at h
  omega

end ShardReader

end CheatEngine
