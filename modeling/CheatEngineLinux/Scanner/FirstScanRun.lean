import CheatEngineLinux.Scanner.FirstScan
import CheatEngineLinux.Scanner.ScanBufferPlain

/-!
# What the workers of a first scan write

* `partitionChunks_flatten` — **PROVED**: the runs of the workers are the chunks, in order;
* `firstWorker_part` — **PROVED**: a worker writes the matches of its chunks;
* `runFirstScan_addresses` — **PROVED**: the result lists the matches of all chunks, in order,
  for every number of workers.
-/

namespace CheatEngine

open RecordFile ScanResult StridedScan

/-! ### The partition -/

theorem takeShare_append (perThread acc : ℕ) (chunks : List Chunk) :
    (takeShare perThread acc chunks).1 ++ (takeShare perThread acc chunks).2 = chunks := by
  induction chunks generalizing acc with
  | nil => rfl
  | cons c chunks ih =>
    rw [takeShare]
    split
    · exact congrArg (c :: ·) (ih (acc + c.owned))
    · rfl

theorem partitionChunks_length (perThread n : ℕ) (chunks : List Chunk) :
    (partitionChunks perThread n chunks).length = n := by
  fun_induction partitionChunks perThread n chunks with
  | case1 => rfl
  | case2 => rfl
  | case3 n chunks run left hshare ih => rw [List.length_cons, ih]

theorem partitionChunks_flatten (perThread : ℕ) {n : ℕ} (hn : 0 < n) (chunks : List Chunk) :
    (partitionChunks perThread n chunks).flatten = chunks := by
  fun_induction partitionChunks perThread n chunks with
  | case1 => cases hn
  | case2 => simp
  | case3 n chunks run left hshare ih =>
    have := takeShare_append perThread 0 chunks
    rw [hshare] at this
    rw [List.flatten_cons, ih (by omega), this]

theorem firstThreads_pos (target : FirstScanTarget) {host : ScanHost} (h : 1 ≤ host.threadCount)
    (chunks : ℕ) : 0 < firstThreads target host chunks := by
  rw [firstThreads]
  have : (1 : ℤ) ≤ if target.supportsConcurrentReads then host.threadCount else 1 := by
    split <;> omega
  omega

/-! ### The addresses of a result -/

def ScanResult.addresses (r : ScanResult) (disk : Disk) : List UInt64 :=
  (List.range r.count).map (r.address disk)

theorem Opened.addresses_eq {disk : Disk} {all : Bool} {s : ℕ} {parts : List (List ScanRow)}
    {r : ScanResult} (h : Opened disk all s parts r) :
    r.addresses disk = parts.flatten.map ScanRow.address := by
  rw [addresses, h.count]
  refine List.ext_getElem? fun i => ?_
  rw [List.getElem?_map, List.getElem?_map]
  by_cases hi : i < parts.flatten.length
  · have hrow : parts.flatten[i]? = some parts.flatten[i] := List.getElem?_eq_getElem hi
    rw [List.getElem?_range hi, hrow, Option.map_some, Option.map_some, h.address_eq hrow]
  · rw [List.getElem?_eq_none (by simpa using hi), List.getElem?_eq_none (by simpa using hi)]
    rfl

/-! ### The rows of a chunk -/

section Rows

variable {iconv : String → List UInt8 → Option (List UInt8)} {σ : Type} {lua : FormulaEvaluator σ}
  {target : FirstScanTarget} {host : ScanHost} {config : ScanConfig}

theorem plainScan_size {s : ℕ} (h : valueSizeForConfig iconv config = .ok s)
    (hp : config.valueType = .pointer → config.pointerWidth = 4 ∨ config.pointerWidth = 8) :
    (plainScan iconv config).size = s := by
  rw [valueSizeForConfig] at h
  cases hv : config.valueType <;> rw [hv] at h <;> rw [plainScan, hv] <;>
    simp only [bind_eq_ok, pure, Except.pure, Except.ok.injEq] at h
  case string | unicodeString =>
    obtain ⟨bytes, hbytes, rfl⟩ := h
    rw [hbytes]
    rfl
  case grouped =>
    obtain ⟨size, hsize, rfl⟩ := h
    dsimp only
    rw [ScanConfig.blockSize, hsize]
    rfl
  case pointer =>
    rcases hp hv with h4 | h8
    · rw [← h, h4]
      rfl
    · rw [← h, h8]
      rfl
  all_goals exact h

theorem plainScan_stride_pos (config : ScanConfig) : 0 < (plainScan iconv config).stride := by
  rw [plainScan]
  split <;> dsimp only <;> omega

/-- A value of any search has at least one byte. -/
theorem plainScan_size_pos (config : ScanConfig) : 0 < (plainScan iconv config).size := by
  rw [plainScan]
  split <;> dsimp only
  case h_5 => split <;> decide
  all_goals first | omega | decide

theorem plainScan_size_all (h : config.valueType = .all) : (plainScan iconv config).size = 8 := by
  rw [plainScan, h]

theorem plainScan_whole (h : config.valueType ≠ .all) : (plainScan iconv config).whole = true := by
  rw [plainScan]
  split <;> first | rfl | exact absurd ‹_› h

def chunkRows (iconv : String → List UInt8 → Option (List UInt8)) (target : FirstScanTarget)
    (config : ScanConfig) (c : Chunk) : List ScanRow :=
  (plainHits iconv config c.owned (target.read c.base c.readLen)).map (hitRow c.base)

/-- A limit beyond the buffer changes nothing. -/
theorem plainHits_min (config : ScanConfig) (owned : ℕ) (buf : List UInt8) :
    plainHits iconv config (min buf.length owned) buf = plainHits iconv config owned buf := by
  rw [plainHits, plainHits, scanWindows, scanWindows,
    show min (min buf.length owned) buf.length = min owned buf.length by omega]

theorem plainHits_nil (config : ScanConfig) (owned : ℕ) : plainHits iconv config owned [] = [] := by
  have hpos := @plainScan_size_pos iconv config
  have hlimit : (if (plainScan iconv config).whole then ([] : List UInt8).length + 1
      - (plainScan iconv config).size else min owned ([] : List UInt8).length) = 0 := by
    split
    · rw [List.length_nil]
      omega
    · rw [List.length_nil]
      omega
  rw [plainHits, scanWindows, hlimit, strideOffsets_zero (plainScan_stride_pos config)]
  rfl

theorem scanChunk_eq (h : PlainConfig iconv host.simd config)
    (out : (ScanResult × ResultDir) × σ) (c : Chunk) :
    scanChunk iconv lua target host config out c =
      ((chunkRows iconv target config c).foldl (addRow (config.valueType = .all)) out.1, out.2) := by
  rw [scanChunk, chunkRows]
  split
  · rename_i hempty
    rw [List.isEmpty_iff.mp hempty, plainHits_nil]
    rfl
  · rw [scanRegion_plain lua h, plainHits_min]

theorem scanChunks_eq (h : PlainConfig iconv host.simd config) (chunks : List Chunk)
    (out : (ScanResult × ResultDir) × σ) :
    chunks.foldl (scanChunk iconv lua target host config) out =
      ((chunks.flatMap (chunkRows iconv target config)).foldl (addRow (config.valueType = .all))
        out.1, out.2) := by
  induction chunks generalizing out with
  | nil => rfl
  | cons c chunks ih =>
    rw [List.foldl_cons, ih, scanChunk_eq h, List.flatMap_cons, List.foldl_append]

theorem plainHit_row {buf : List UInt8} {owned : ℕ} {hit : Hit}
    (h : hit ∈ plainHits iconv config owned buf) :
    hit.value.length = (plainScan iconv config).size ∧
      (config.valueType = .all → badMask hit.mask = false) := by
  rw [plainHits, List.mem_map] at h
  obtain ⟨off, hoff, rfl⟩ := h
  rw [scanWindows, List.mem_filter, mem_strideOffsets (plainScan_stride_pos config)] at hoff
  obtain ⟨⟨-, hlt⟩, htest⟩ := hoff
  by_cases hall : config.valueType = .all
  · have hmask : allTypeMask config ((buf.drop off).take (plainScan iconv config).size) ≠ 0 := by
      rw [plainScan, hall] at htest ⊢
      simpa using htest
    rw [plainHit, if_pos hall]
    refine ⟨by rw [plainScan_size_all hall]; exact allTypeWindow_length _, fun _ => ?_⟩
    have hbits : allTypeMask config ((buf.drop off).take (plainScan iconv config).size) &&& 0xc0
      = 0 := candidateMask_bits _
    rw [badMask]
    simp only [Bool.or_eq_false_iff, beq_eq_false_iff_ne, bne_eq_false_iff_eq]
    exact ⟨hmask, hbits⟩
  · rw [plainScan_whole hall, if_pos rfl] at hlt
    rw [plainHit, if_neg hall]
    refine ⟨?_, fun h => absurd h hall⟩
    rw [List.length_take, List.length_drop]
    omega

theorem chunkRows_sized (chunks : List Chunk) :
    RowsOfSize (config.valueType = .all) (plainScan iconv config).size
      (chunks.flatMap (chunkRows iconv target config)) := by
  have hrow : ∀ row ∈ chunks.flatMap (chunkRows iconv target config),
      row.value.length = (plainScan iconv config).size ∧ row.first = row.value ∧
        (config.valueType = .all → badMask row.mask = false) := by
    intro row hrow
    obtain ⟨c, -, hrow⟩ := List.mem_flatMap.mp hrow
    obtain ⟨hit, hhit, rfl⟩ := List.mem_map.mp hrow
    obtain ⟨h1, h2⟩ := plainHit_row hhit
    exact ⟨h1, rfl, h2⟩
  refine ⟨plainScan_size_pos config, fun row h => (hrow row h).1, fun row h => ?_, fun hall => ?_⟩
  · rw [(hrow row h).2.1, (hrow row h).1]
  · have hall := of_decide_eq_true hall
    exact ⟨plainScan_size_all hall, fun row h => (hrow row h).2.2 hall⟩

theorem chunkRows_kept (chunks : List Chunk) :
    (chunks.flatMap (chunkRows iconv target config)).map (ScanRow.kept false)
      = chunks.flatMap (chunkRows iconv target config) := by
  refine (List.map_congr_left fun row hrow => ?_).trans (List.map_id _)
  obtain ⟨c, -, hrow⟩ := List.mem_flatMap.mp hrow
  obtain ⟨hit, -, rfl⟩ := List.mem_map.mp hrow
  rfl

/-! ### Workers -/

/-- A worker's result holds the rows of its chunks; `s` is any size if there are none. -/
theorem firstWorker_part (h : PlainConfig iconv host.simd config) {disk : Disk} {dir : String}
    (hdir : disk dir = {}) {chunks : List Chunk} {s : ℕ}
    (hrows : RowsOfSize (config.valueType = .all) s (chunks.flatMap (chunkRows iconv target config)))
    (hmax : (chunks.flatMap (chunkRows iconv target config)).length ≤ sizeMax) :
    WorkerPart (config.valueType = .all) false s (config.byteOrder, config.pointerWidth) dir
      (chunks.flatMap (chunkRows iconv target config))
      (firstWorker iconv lua target host config disk dir chunks) := by
  have hcreate : openDir disk dir false = create dir false {} := by
    rw [openDir, hdir]
    rfl
  obtain ⟨hformat, hf1, hf2⟩ := written_setDataFormat (written_create dir false s) config.byteOrder
    h.pointerWidth
  rw [firstWorker, hcreate]
  dsimp only
  generalize (create dir false {}).1.setDataFormat (create dir false {}).2 config.byteOrder
    config.pointerWidth = st at hformat hf1 hf2 ⊢
  obtain ⟨r, files⟩ := st
  dsimp only at hformat hf1 hf2 ⊢
  have hstart : ∃ st : ScanResult × ResultDir, (if config.valueType = .all
      then r.enableAllTypeCandidates files else (r, files)) = st ∧
      Written (config.valueType = .all) false s [] st.1 st.2 ∧
      st.1.format = some (config.byteOrder, config.pointerWidth) ∧ st.1.dir = dir := by
    refine ⟨_, rfl, ?_⟩
    split
    · rename_i hall
      rw [decide_eq_true hall]
      obtain ⟨k1, k2⟩ := @enableAllTypeCandidates_keeps r files
      exact ⟨written_enableAllTypeCandidates hformat, k2.trans hf1, k1.trans hf2⟩
    · rename_i hall
      rw [decide_eq_false hall]
      exact ⟨hformat, hf1, hf2⟩
  obtain ⟨st, hst, hwritten, hsf, hsd⟩ := hstart
  rw [hst, scanChunks_eq h]
  have hrun := written_addRows hwritten hrows
  obtain ⟨hk1, hk2⟩ := addRows_same (config.valueType = .all)
    (chunks.flatMap (chunkRows iconv target config)) st
  have hfin := finished_finalize hrun hrows hmax
  rw [hk1, hsd] at hfin
  exact ⟨hfin, by rw [finalize_same, hk2]; exact hsf⟩

theorem flatMap_runs {α : Type*} (runs : List (List Chunk)) (f : List Chunk → List α) :
    (List.range runs.length).flatMap (fun t => f (runs.getD t [])) = runs.flatMap f := by
  have hget : (List.range runs.length).map (fun t => runs.getD t []) = runs := by
    refine List.ext_getElem (by simp) fun i h1 h2 => ?_
    rw [List.getElem_map, List.getElem_range, List.getD_eq_getElem?_getD,
      List.getElem?_eq_getElem h2]
    rfl
  have := congrArg (List.flatMap f) hget
  rwa [List.flatMap_map] at this

theorem runFirstScan_addresses (h : PlainConfig iconv host.simd config) {disk : Disk}
    {resultDir : String} (hdir : NewScanDir disk resultDir) (hthreads : 1 ≤ host.threadCount)
    {chunks : List Chunk} {s : ℕ}
    (hrows : RowsOfSize (config.valueType = .all) s (chunks.flatMap (chunkRows iconv target config)))
    (hs : s ≤ sizeMax)
    (hmax : (chunks.flatMap (chunkRows iconv target config)).length ≤ sizeMax) :
    (runFirstScan iconv lua target host config disk resultDir chunks).1.addresses
        (runFirstScan iconv lua target host config disk resultDir chunks).2 =
      (chunks.flatMap (chunkRows iconv target config)).map ScanRow.address := by
  obtain ⟨n, hn⟩ : ∃ n, n = firstThreads target host chunks.length := ⟨_, rfl⟩
  have hpos : 0 < n := hn ▸ firstThreads_pos target hthreads chunks.length
  obtain ⟨runs, hruns⟩ : ∃ runs, runs = partitionChunks
    (perThreadBytes (ownedBytes chunks) n) n chunks := ⟨_, rfl⟩
  have hlen : runs.length = n := by rw [hruns, partitionChunks_length]
  have hflat : runs.flatten = chunks := by rw [hruns, partitionChunks_flatten _ hpos]
  have hall : ∀ {α : Type} (f : List Chunk → List α), (∀ a b, f (a ++ b) = f a ++ f b) →
      f [] = [] → (List.range n).flatMap (fun t => f (runs.getD t [])) = f chunks := by
    intro α f happ hnil
    rw [← hlen, flatMap_runs, ← hflat]
    clear hruns hlen hflat
    induction runs with
    | nil => exact hnil.symm
    | cons run runs ih => rw [List.flatMap_cons, ih, List.flatten_cons, happ]
  have hrun : ∀ t, ∀ c ∈ runs.getD t [], c ∈ chunks := by
    intro t c hc
    rw [List.getD_eq_getElem?_getD] at hc
    cases hget : runs[t]? with
    | none => rw [hget] at hc; cases hc
    | some run =>
      rw [hget] at hc
      rw [← hflat]
      exact List.mem_flatten.mpr ⟨run, List.mem_of_getElem? hget, hc⟩
  have hall' := hall (fun cs => cs.flatMap (chunkRows iconv target config))
    (fun _ _ => List.flatMap_append) rfl
  have hopen := @assembleShardedResult_opened disk
    (fun t => firstWorker iconv lua target host config disk (workerDir resultDir t)
      (runs.getD t [])) (workerDir resultDir) (List.range n) (config.valueType = .all) false s
    (config.byteOrder, config.pointerWidth)
    (fun t => (runs.getD t []).flatMap (chunkRows iconv target config)) (resultsDir resultDir)
    (hdir.scanDirs _) ?_ (by simp; omega) h.pointerWidth hs (by rw [hall']; exact hmax)
  · rw [runFirstScan, ← hn, ← hruns, hopen.addresses_eq]
    congr 1
    simp only [chunkRows_kept]
    exact hall'
  · intro t _
    refine firstWorker_part h (hdir.workers t) (hrows.of_subset fun row hrow => ?_) ?_
    · obtain ⟨c, hc, hrow⟩ := List.mem_flatMap.mp hrow
      exact List.mem_flatMap.mpr ⟨c, hrun t c hc, hrow⟩
    · refine le_trans ?_ hmax
      rw [← hflat]
      rw [List.getD_eq_getElem?_getD]
      cases hget : runs[t]? with
      | none => exact Nat.zero_le _
      | some run =>
        refine List.Sublist.length_le ?_
        rw [Option.getD_some]
        exact (List.sublist_flatten_of_mem (List.mem_of_getElem? hget)).flatMap _

end Rows

end CheatEngine
