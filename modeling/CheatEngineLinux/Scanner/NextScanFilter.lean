import CheatEngineLinux.Scanner.NextScan

/-!
# A next scan filters the previous result

* `nextBatch_eq` — **PROVED**: a batch adds the rows of the batch that are kept;
* `nextWorker_part` — **PROVED**: a worker's result holds what is kept of its range;
* `nextScan_filters` — **PROVED**: the result of a scan is the previous rows in their order,
  filtered by range, readability and `nextScanCompare`;
* `session_narrows` — **PROVED**: many scans leave what each row on its own comes through as.
-/

namespace CheatEngine

open RecordFile ScanResult Slices

/-! ### What is kept of a list of rows -/

section Keep

variable (iconv : String → List UInt8 → Option (List UInt8)) {σ : Type} (lua : FormulaEvaluator σ)
  (plan : NextPlan) (mem : Memory) (previousAll : Bool)

/-- What a scan makes of a row, with the formula's state before and after. -/
def keepRow (row : ScanRow) (st : σ) : Option ScanRow × σ :=
  if (selectRow plan previousAll row.address row.mask).isNone then (none, st)
  else
    match readBytes mem row.address.toNat plan.valueSize with
    | none => (none, st)
    | some current =>
      let (isMatch, st) := nextScanCompare iconv lua plan.config plan.valueSize current row.value
        row.first plan.needles st
      (if isMatch then some ⟨row.address, current, row.first.take plan.valueSize, 0⟩ else none, st)

def keepRows : σ → List ScanRow → List ScanRow × σ
  | st, [] => ([], st)
  | st, row :: rows =>
    let kept := keepRow iconv lua plan mem previousAll row st
    let rest := keepRows kept.2 rows
    (kept.1.toList ++ rest.1, rest.2)

variable {iconv : String → List UInt8 → Option (List UInt8)} {σ : Type} {lua : FormulaEvaluator σ}
  {plan : NextPlan} {mem : Memory} {previousAll : Bool}

theorem keepRows_append (st : σ) (rows rows' : List ScanRow) :
    keepRows iconv lua plan mem previousAll st (rows ++ rows') =
      ((keepRows iconv lua plan mem previousAll st rows).1 ++
          (keepRows iconv lua plan mem previousAll
            (keepRows iconv lua plan mem previousAll st rows).2 rows').1,
        (keepRows iconv lua plan mem previousAll
          (keepRows iconv lua plan mem previousAll st rows).2 rows').2) := by
  induction rows generalizing st with
  | nil => rfl
  | cons row rows ih =>
    rw [List.cons_append, keepRows, ih, keepRows]
    simp only [List.append_assoc]

theorem keepRow_some {row kept : ScanRow} {st : σ}
    (h : (keepRow iconv lua plan mem previousAll row st).1 = some kept) :
    readBytes mem row.address.toNat plan.valueSize = some kept.value ∧
      kept.address = row.address ∧ kept.first = row.first.take plan.valueSize := by
  rw [keepRow] at h
  split at h
  · cases h
  · split at h
    · cases h
    · rename_i current hread
      dsimp only at h
      split at h
      · rw [← Option.some.inj h]
        exact ⟨hread, rfl, rfl⟩
      · cases h

theorem keepRows_mem {rows : List ScanRow} {st : σ} {kept : ScanRow}
    (h : kept ∈ (keepRows iconv lua plan mem previousAll st rows).1) :
    ∃ row ∈ rows, readBytes mem row.address.toNat plan.valueSize = some kept.value ∧
      kept.address = row.address ∧ kept.first = row.first.take plan.valueSize := by
  induction rows generalizing st with
  | nil => cases h
  | cons row rows ih =>
    rw [keepRows, List.mem_append] at h
    rcases h with h | h
    · exact ⟨row, List.mem_cons_self, keepRow_some (Option.mem_toList.mp h)⟩
    · obtain ⟨row', hrow', hspec⟩ := ih h
      exact ⟨row', List.mem_cons_of_mem _ hrow', hspec⟩

theorem keepRows_length (rows : List ScanRow) (st : σ) :
    (keepRows iconv lua plan mem previousAll st rows).1.length ≤ rows.length := by
  induction rows generalizing st with
  | nil => exact Nat.le_refl _
  | cons row rows ih =>
    have hone : ∀ o : Option ScanRow, o.toList.length ≤ 1 := by
      intro o
      cases o <;> simp
    have h1 := hone (keepRow iconv lua plan mem previousAll row st).1
    have h2 := ih (keepRow iconv lua plan mem previousAll row st).2
    rw [keepRows, List.length_append, List.length_cons]
    omega

/-- What is kept can be written. -/
theorem keepRows_sized {s : ℕ} {rows : List ScanRow} (hrows : RowsOfSize previousAll s rows)
    (hpos : 0 < plan.valueSize) (hle : plan.valueSize ≤ s) (st : σ) :
    RowsOfSize false plan.valueSize (keepRows iconv lua plan mem previousAll st rows).1 := by
  refine ⟨hpos, ?_, ?_, fun h => by cases h⟩
  · intro kept hkept
    obtain ⟨row, -, hread, -⟩ := keepRows_mem hkept
    exact readBytes_length hread
  · intro kept hkept
    obtain ⟨row, hrow, -, -, hfirst⟩ := keepRows_mem hkept
    rw [hfirst, List.length_take, hrows.first row hrow]
    omega

end Keep

/-! ### A batch -/

section Batch

variable {iconv : String → List UInt8 → Option (List UInt8)} {σ : Type} {lua : FormulaEvaluator σ}
  {target : ScanTarget} {plan : NextPlan} {mem : Memory} {previousAll : Bool}

/-- `readMany` reports exactly the addresses whose bytes can all be read. -/
def ReadsMemory (target : ScanTarget) (mem : Memory) : Prop :=
  ∀ addresses size, target.readMany addresses size =
    addresses.map fun address => readBytes mem address.toNat size

theorem selectRow_mask (hall : plan.config.valueType ≠ .all) (address : UInt64) (m m' : UInt8) :
    selectRow plan false address m = selectRow plan false address m' := by
  simp [selectRow, hall]

theorem recordAt_flatMap {s : ℕ} {rows : List ScanRow} {f : ScanRow → List UInt8}
    (hf : ∀ row ∈ rows, (f row).length = s) {i : ℕ} {row : ScanRow} (hi : rows[i]? = some row) :
    recordAt s (rows.flatMap f) i = f row := by
  obtain ⟨hlt, hget⟩ := List.getElem?_eq_some_iff.mp hi
  have hrow := hf row (List.mem_of_getElem? hi)
  rw [recordAt, drop_flatMap rows hf, List.drop_eq_getElem_cons hlt, hget, List.flatMap_cons,
    List.take_left' hrow]

def keepStep (iconv : String → List UInt8 → Option (List UInt8)) (lua : FormulaEvaluator σ)
    (plan : NextPlan) (mem : Memory) (previousAll : Bool) (out : WorkerState σ) (row : ScanRow) :
    WorkerState σ :=
  let kept := keepRow iconv lua plan mem previousAll row out.2
  (kept.1.toList.foldl (addRow false) out.1, kept.2)

theorem foldl_keepStep (rows : List ScanRow) (out : WorkerState σ) :
    rows.foldl (keepStep iconv lua plan mem previousAll) out =
      ((keepRows iconv lua plan mem previousAll out.2 rows).1.foldl (addRow false) out.1,
        (keepRows iconv lua plan mem previousAll out.2 rows).2) := by
  induction rows generalizing out with
  | nil => rfl
  | cons row rows ih =>
    rw [List.foldl_cons, ih, keepRows]
    simp only [keepStep, List.foldl_append]

theorem nextBatch_eq (hread : ReadsMemory target mem) (hall : plan.config.valueType ≠ .all)
    {rows : List ScanRow} (hrows : RowsOfSize previousAll plan.inputSize rows)
    (out : WorkerState σ) :
    nextBatch iconv lua target plan previousAll (batchOf rows previousAll) rows.length out =
      ((keepRows iconv lua plan mem previousAll out.2 rows).1.foldl (addRow false) out.1,
        (keepRows iconv lua plan mem previousAll out.2 rows).2) := by
  rw [← foldl_keepStep, nextBatch, if_neg hall]
  dsimp only
  rw [hread, List.map_map]
  nth_rewrite 1 [← List.map_id (selectRows plan previousAll (batchOf rows previousAll) rows.length)]
  rw [List.zip_map', List.foldl_map, selectRows, List.foldl_filterMap]
  refine foldl_range (fun i row out hi => ?_) out
  have haddr : (batchOf rows previousAll).addrs.getD i 0 = row.address := by
    rw [List.getD_eq_getElem?_getD, batchOf, List.getElem?_map, hi]
    rfl
  have hmask : selectRow plan previousAll row.address ((batchOf rows previousAll).candidates.getD i 0)
      = selectRow plan previousAll row.address row.mask := by
    cases previousAll
    · exact selectRow_mask hall _ _ _
    · rw [List.getD_eq_getElem?_getD, batchOf, if_pos rfl, List.getElem?_map, hi]
      rfl
  have hold : recordAt plan.inputSize (batchOf rows previousAll).oldVals i = row.value :=
    recordAt_flatMap hrows.value hi
  have hfirst : recordAt plan.inputSize (batchOf rows previousAll).firstVals i = row.first :=
    recordAt_flatMap hrows.first hi
  simp only [haddr, hmask, keepStep, keepRow, Function.comp_apply, id_eq]
  cases hsel : selectRow plan previousAll row.address row.mask with
  | none => rfl
  | some pending =>
    simp only [Option.map_some, Option.isNone_some, Bool.false_eq_true, if_false, emitRow]
    cases hbytes : readBytes mem row.address.toNat plan.valueSize with
    | none => rfl
    | some current =>
      have hlen := readBytes_length hbytes
      simp only [hold, hfirst]
      split
      · simp [addRow, hlen]
      · simp

/-- What the batches of a scan keep of their rows, with the formula's state before and after;
`all` tells whether the rows have masks. -/
structure Keeping (iconv : String → List UInt8 → Option (List UInt8)) (lua : FormulaEvaluator σ)
    (target : ScanTarget) (plan : NextPlan) (previousAll all : Bool)
    (keep : σ → List ScanRow → List ScanRow × σ) : Prop where
  typed : all = decide (plan.config.valueType = .all)
  nil : ∀ st, keep st [] = ([], st)
  append : ∀ st rows rows', keep st (rows ++ rows') =
    ((keep st rows).1 ++ (keep (keep st rows).2 rows').1, (keep (keep st rows).2 rows').2)
  length : ∀ st rows, (keep st rows).1.length ≤ rows.length
  sized : ∀ st rows, RowsOfSize previousAll plan.inputSize rows → plan.valueSize ≤ plan.inputSize →
    RowsOfSize all plan.valueSize (keep st rows).1
  batch : ∀ rows, RowsOfSize previousAll plan.inputSize rows → ∀ out : WorkerState σ,
    nextBatch iconv lua target plan previousAll (batchOf rows previousAll) rows.length out =
      ((keep out.2 rows).1.foldl (addRow all) out.1, (keep out.2 rows).2)

theorem keepRows_keeping (hread : ReadsMemory target mem) (hall : plan.config.valueType ≠ .all)
    (hpos : 0 < plan.valueSize) :
    Keeping iconv lua target plan previousAll false (keepRows iconv lua plan mem previousAll) where
  typed := (decide_eq_false hall).symm
  nil _ := rfl
  append := keepRows_append
  length st rows := keepRows_length rows st
  sized st _ hrows hle := keepRows_sized hrows hpos hle st
  batch _ hrows := nextBatch_eq hread hall hrows

variable {all : Bool} {keep : σ → List ScanRow → List ScanRow × σ}

/-- The loop adds what is kept of the rows from `idx` to `stop`. -/
theorem nextLoop_eq (hkeep : Keeping iconv lua target plan previousAll all keep)
    {rows : List ScanRow} (hrows : RowsOfSize previousAll plan.inputSize rows)
    {reader : ShardReader}
    (hreader : ∀ i n, i + n ≤ rows.length → reader.read i n plan.inputSize previousAll =
      some (batchOf ((rows.drop i).take n) previousAll))
    {stop : ℕ} (hstop : stop ≤ rows.length) (idx : ℕ) (hidx : idx ≤ stop) (out : WorkerState σ) :
    nextLoop iconv lua target plan reader previousAll idx stop out =
      ((keep out.2 (slice rows idx stop)).1.foldl (addRow all) out.1,
        (keep out.2 (slice rows idx stop)).2) := by
  -- induction on the rows left, one batch at a time
  induction hk : stop - idx using Nat.strong_induction_on generalizing idx out with
  | _ k ih =>
    rw [nextLoop]
    by_cases hlt : idx < stop
    · rw [if_pos hlt]
      dsimp only
      set n := min nextBatchRows (stop - idx) with hn
      have hn1 : 0 < n := by
        rw [hn, nextBatchRows]
        omega
      have hn2 : idx + n ≤ stop := by omega
      have hbatch : (rows.drop idx).take n = slice rows idx (idx + n) := by
        rw [slice, Nat.add_sub_cancel_left]
      have hlen : (slice rows idx (idx + n)).length = n := by
        rw [slice_length rows (by omega), Nat.add_sub_cancel_left]
      have hsized : RowsOfSize previousAll plan.inputSize (slice rows idx (idx + n)) :=
        hrows.of_subset fun row hrow => List.mem_of_mem_drop (List.mem_of_mem_take hrow)
      have hstep := hkeep.batch _ hsized out
      rw [hlen] at hstep
      rw [hreader idx n (by omega), hbatch]
      dsimp only
      rw [hstep, ih (stop - (idx + n)) (by omega) (idx + n) hn2 _ rfl,
        slice_split rows (Nat.le_add_right idx n) hn2, hkeep.append]
      simp only [List.foldl_append]
    · have heq : idx = stop := by omega
      rw [if_neg hlt, heq, slice_empty, hkeep.nil]
      rfl

end Batch

/-! ### A worker -/

structure Planned (disk : Disk) (requested : ScanConfig) (previous : ScanResult) (plan : NextPlan) :
    Prop where
  config : TargetConfig requested plan.config
  valueSize : 0 < plan.valueSize
  fits : previous.count ≠ 0 → plan.valueSize ≤ plan.inputSize
  stride : previous.count ≠ 0 → previous.recordStride disk = plan.inputSize

theorem valueSize_of_candidate {iconv : String → List UInt8 → Option (List UInt8)}
    {config : ScanConfig} {size : ℕ} (h : valueSizeForConfig iconv config = .ok size)
    (hc : allCandidateFor config.valueType ≠ 0 ∨ config.valueType = .all) : size ≤ 8 := by
  unfold valueSizeForConfig at h
  unfold allCandidateFor at hc
  split at h <;> simp_all <;> omega

theorem nextScanPlan_ok {iconv : String → List UInt8 → Option (List UInt8)}
    {description : TargetDescription} {disk : Disk} {requested : ScanConfig} {previous : ScanResult}
    {plan : NextPlan} (h : nextScanPlan iconv description disk requested previous = .ok plan) :
    Planned disk requested previous plan := by
  simp only [nextScanPlan, bind_eq_ok, refuseIf_eq_ok] at h
  obtain ⟨-, -, -, -, -, hnumeric, config, hconfig, -, -, -, -, size, hsize, -, hstride,
    needles, -, hplan⟩ := h
  cases hplan
  have htarget := targetScanConfig_ok hconfig
  have hpos := valueSize_pos hsize htarget.pointer
  refine ⟨htarget, hpos, fun hcount => ?_, fun hcount => ?_⟩
  · cases hall : previous.hasAllTypes
    · exact Nat.le_refl _
    · refine valueSize_of_candidate hsize ?_
      rw [htarget.valueType]
      by_cases hv : requested.valueType = .all
      · exact Or.inr hv
      · refine Or.inl fun h0 => ?_
        simp [hcount, hall, hv, h0] at hnumeric
  · have hc : decide (previous.count > 0) = true := decide_eq_true (Nat.pos_of_ne_zero hcount)
    simp only [hc, Bool.true_and, Bool.or_eq_false_iff, bne_eq_false_iff_eq] at hstride
    exact hstride.2

section Worker

variable {iconv : String → List UInt8 → Option (List UInt8)} {σ : Type} {lua : FormulaEvaluator σ}
  {target : ScanTarget} {plan : NextPlan} {mem : Memory} {previousAll : Bool} {disk : Disk}
  {requested : ScanConfig} {parts : List (List ScanRow)} {previous : ScanResult}

theorem written_start {config : ScanConfig} {all : Bool} (htyped : all = decide (config.valueType = .all))
    (hwidth : config.pointerWidth = 0 ∨ config.pointerWidth = 4 ∨ config.pointerWidth = 8)
    (dir : String) (s : ℕ) {r : ScanResult} {files : ResultDir}
    (hst : (create dir true {}).1.setDataFormat (create dir true {}).2 config.byteOrder
      config.pointerWidth = (r, files)) :
    ∃ st : ScanResult × ResultDir, (if config.valueType = .all
        then r.enableAllTypeCandidates files else (r, files)) = st ∧
      Written all true s [] st.1 st.2 ∧
      st.1.format = some (config.byteOrder, config.pointerWidth) ∧ st.1.dir = dir := by
  obtain ⟨hformat, hf1, hf2⟩ := written_setDataFormat (written_create dir true s) config.byteOrder
    hwidth
  rw [hst] at hformat hf1 hf2
  refine ⟨_, rfl, ?_⟩
  split
  · rename_i hall
    rw [htyped, decide_eq_true hall]
    obtain ⟨k1, k2⟩ := @enableAllTypeCandidates_keeps r files
    exact ⟨written_enableAllTypeCandidates hformat, k2.trans hf1, k1.trans hf2⟩
  · rename_i hall
    rw [htyped, decide_eq_false hall]
    exact ⟨hformat, hf1, hf2⟩

variable {all : Bool} {keep : σ → List ScanRow → List ScanRow × σ}

theorem nextWorker_part (hkeep : Keeping iconv lua target plan previousAll all keep)
    (hplan : Planned disk requested previous plan)
    (hopen : Opened disk previousAll plan.inputSize parts previous) (hne : parts.flatten ≠ [])
    (hmax : parts.flatten.length ≤ sizeMax) {dir : String} (hdir : disk dir = {}) {start stop : ℕ}
    (hstart : start ≤ stop) (hstop : stop ≤ parts.flatten.length) :
    WorkerPart all true plan.valueSize (plan.config.byteOrder, plan.config.pointerWidth) dir
      (keep lua.fresh (slice parts.flatten start stop)).1
      (nextWorker iconv lua target plan disk previous dir start stop) := by
  have hcount : previous.count ≠ 0 := by
    rw [hopen.count]
    exact fun h => hne (List.length_eq_zero_iff.mp h)
  have hsized := hopen.shards.sized hne
  have hcreate : openDir disk dir true = create dir true {} := by
    rw [openDir, hdir]
    rfl
  set kept := (keep lua.fresh (slice parts.flatten start stop)).1 with hkept
  have hsub : ∀ row ∈ slice parts.flatten start stop, row ∈ parts.flatten := fun row hrow =>
    List.mem_of_mem_drop (List.mem_of_mem_take hrow)
  have hrows : RowsOfSize all plan.valueSize kept :=
    hkeep.sized lua.fresh _ (hsized.of_subset hsub) (hplan.fits hcount)
  have hlen : kept.length ≤ sizeMax := by
    refine le_trans (hkeep.length _ _) (le_trans ?_ hmax)
    rw [slice_length _ hstop]
    omega
  have hloop := nextLoop_eq hkeep hsized
    (fun i n hin => hopen.read_eq hin) hstop start hstart
  generalize hst : (create dir true {}).1.setDataFormat (create dir true {}).2
    plan.config.byteOrder plan.config.pointerWidth = st
  obtain ⟨r, files⟩ := st
  obtain ⟨st, hst', hwritten, hsf, hsd⟩ := written_start hkeep.typed hplan.config.pointerWidth dir
    plan.valueSize hst
  rw [nextWorker, hcreate]
  simp only [hst, hst', hopen.hasAllTypes, hopen.reader_ok, Bool.not_true, Bool.false_eq_true,
    if_false, hloop]
  have hrun := written_addRows hwritten hrows
  obtain ⟨hk1, hk2⟩ := addRows_same all kept st
  have hfin := finished_finalize hrun hrows hlen
  rw [hk1, hsd] at hfin
  exact ⟨hfin, by rw [finalize_same, hk2]; exact hsf⟩

end Worker

/-! ### The scan -/

theorem nextThreads_pos (target : ScanTarget) (threadCount : ℤ) (total : ℕ) :
    0 < nextThreads target threadCount total := by
  have hpos : ∀ x : ℤ, 0 < (max 1 x).toNat := by
    intro x
    omega
  unfold nextThreads
  exact hpos _

section Scan

variable {iconv : String → List UInt8 → Option (List UInt8)} {σ : Type} {lua : FormulaEvaluator σ}
  {target : ScanTarget} {plan : NextPlan} {mem : Memory} {previousAll : Bool} {disk : Disk}
  {requested : ScanConfig} {parts : List (List ScanRow)} {previous : ScanResult}

def workerRuns (target : ScanTarget) (threadCount : ℤ) (rows : List ScanRow) :
    List (List ScanRow) :=
  let nThreads := nextThreads target threadCount rows.length
  (List.range nThreads).map fun t =>
    slice rows (nextSlice rows.length nThreads t).1 (nextSlice rows.length nThreads t).2

theorem workerRuns_flatten (target : ScanTarget) (threadCount : ℤ) (rows : List ScanRow) :
    (workerRuns target threadCount rows).flatten = rows := by
  have hpos := nextThreads_pos target threadCount rows.length
  rw [workerRuns, ← List.flatMap_def]
  exact slices_cover rows (le_mul_ceil rows.length hpos)

theorem runNextScan_opened {all : Bool} {keep : σ → List ScanRow → List ScanRow × σ}
    (hkeep : Keeping iconv lua target plan previousAll all keep)
    (hplan : Planned disk requested previous plan) (hallSize : all = true → plan.valueSize = 8)
    {s : ℕ}
    (hopen : Opened disk previousAll s parts previous) (hmax : parts.flatten.length ≤ sizeMax)
    (hs : s ≤ sizeMax) {resultDir : String} (hdir : NewScanDir disk resultDir) (threadCount : ℤ) :
    ∃ parts', Opened (runNextScan iconv lua target plan disk threadCount resultDir previous).2
        all plan.valueSize parts'
        (runNextScan iconv lua target plan disk threadCount resultDir previous).1 ∧
      parts'.flatten = (workerRuns target threadCount parts.flatten).flatMap fun run =>
        (keep lua.fresh run).1 := by
  set rows := parts.flatten with hrows
  have hresults := hdir.results
  have hkept : (ScanRow.kept true) = id := rfl
  by_cases hne : rows = []
  · -- nothing was found before
    have hcount : previous.count = 0 := by rw [hopen.count, ← hrows, hne]; rfl
    have hnone : (workerRuns target threadCount rows).flatMap (fun run =>
        (keep lua.fresh run).1) = [] := by
      rw [List.flatMap_eq_nil_iff]
      intro run hrun
      have hempty : run = [] := by
        have hflat := workerRuns_flatten target threadCount rows
        rw [hne, List.flatten_eq_nil_iff] at hflat
        exact hflat run (hne ▸ hrun)
      rw [hempty, hkeep.nil]
    have hcreate : openDir disk (resultsDir resultDir) true = create (resultsDir resultDir) true {} := by
      rw [openDir, hresults]
      rfl
    have hstart : ∃ st : ScanResult × ResultDir, (if plan.config.valueType = .all
        then (create (resultsDir resultDir) true {}).1.enableAllTypeCandidates
          (create (resultsDir resultDir) true {}).2
        else create (resultsDir resultDir) true {}) = st ∧
        Written all true plan.valueSize [] st.1 st.2 ∧ st.1.dir = resultsDir resultDir := by
      refine ⟨_, rfl, ?_⟩
      have hwritten := written_create (resultsDir resultDir) true plan.valueSize
      split
      · rename_i hall
        rw [hkeep.typed, decide_eq_true hall]
        exact ⟨written_enableAllTypeCandidates hwritten, enableAllTypeCandidates_keeps.1⟩
      · rename_i hall
        rw [hkeep.typed, decide_eq_false hall]
        exact ⟨hwritten, rfl⟩
    obtain ⟨st, hst, hwritten, hsd⟩ := hstart
    obtain ⟨hformat, -, hf2⟩ := written_setDataFormat hwritten plan.config.byteOrder
      hplan.config.pointerWidth
    have hfin := finished_finalize hformat ⟨hplan.valueSize, by simp, by simp,
      fun h => ⟨hallSize h, by simp⟩⟩ (Nat.zero_le _)
    rw [hf2, hsd] at hfin
    refine ⟨[([] : List ScanRow).map (ScanRow.kept true)], ?_, by rw [hnone]; rfl⟩
    rw [runNextScan, hcount, if_pos rfl, hcreate]
    dsimp only
    rw [show (if plan.config.valueType = .all then
      ((create (resultsDir resultDir) true {}).1.enableAllTypeCandidates
        (create (resultsDir resultDir) true {}).2) else
      ((create (resultsDir resultDir) true {}).1, (create (resultsDir resultDir) true {}).2)) = st
      from hst]
    exact @Finished.opened _ _ _ _ _ _ _ hfin (disk.put _ _) (by rw [Disk.put, if_pos rfl])
  · have hcount : previous.count ≠ 0 := by
      rw [hopen.count]
      exact fun h => hne (List.length_eq_zero_iff.mp h)
    have hsize : s = plan.inputSize := by
      rw [← hplan.stride hcount, hopen.recordStride_eq hne]
    subst hsize
    obtain ⟨n, hn⟩ : ∃ n, n = nextThreads target threadCount rows.length := ⟨_, rfl⟩
    have hpart : ∀ t, ∀ dir, disk dir = {} →
        WorkerPart all true plan.valueSize (plan.config.byteOrder, plan.config.pointerWidth) dir
          (keep lua.fresh
            (slice rows (nextSlice rows.length n t).1 (nextSlice rows.length n t).2)).1
          (nextWorker iconv lua target plan disk previous dir (nextSlice rows.length n t).1
            (nextSlice rows.length n t).2) := by
      intro t dir hempty
      refine nextWorker_part hkeep hplan hopen hne hmax hempty ?_ ?_
      · exact le_min (Nat.min_le_left _ _) (Nat.le_add_right _ _)
      · exact Nat.min_le_left _ _
    rw [runNextScan, if_neg hcount, hopen.count, ← hrows, ← hn]
    by_cases h1 : n = 1
    · have hslice : nextSlice rows.length n 0 = (0, rows.length) := by
        simp [nextSlice, h1]
      have hone := hpart 0 _ hresults
      rw [hslice] at hone
      have hruns : (workerRuns target threadCount rows).flatMap (fun run =>
          (keep lua.fresh run).1) = (keep lua.fresh (slice rows 0 rows.length)).1 := by
        rw [workerRuns, ← hn, h1]
        simp [nextSlice]
      rw [if_pos h1, hruns]
      refine ⟨_, @Finished.opened _ _ _ _ _ _ _ hone.finished (disk.put (resultsDir resultDir) _)
        (by rw [Disk.put, if_pos rfl]), ?_⟩
      simp [hkept]
    · rw [if_neg h1]
      have hfits : ((List.range n).flatMap fun t => (keep lua.fresh
          (slice rows (nextSlice rows.length n t).1 (nextSlice rows.length n t).2)).1).length
          ≤ sizeMax := by
        refine le_trans ?_ hmax
        have hruns := congrArg List.length (workerRuns_flatten target threadCount rows)
        rw [List.length_flatten, workerRuns, ← hn, List.map_map] at hruns
        refine le_of_le_of_eq ?_ hruns
        rw [List.length_flatMap]
        exact List.sum_le_sum fun t _ => hkeep.length _ _
      refine ⟨_, assembleShardedResult_opened (hdir.scanDirs (List.range n))
        (fun t _ => hpart t _ (hdir.workers t)) (by
          have := nextThreads_pos target threadCount rows.length
          intro hnil
          rw [List.range_eq_nil] at hnil
          omega) hplan.config.pointerWidth (le_trans (hplan.fits hcount) hs) hfits, ?_⟩
      rw [workerRuns, ← hn, List.flatMap_map, List.flatMap_def]
      simp [hkept]

def workersKeep (iconv : String → List UInt8 → Option (List UInt8)) (lua : FormulaEvaluator σ)
    (target : ScanTarget) (plan : NextPlan) (mem : Memory) (previousAll : Bool) (threadCount : ℤ)
    (rows : List ScanRow) : List ScanRow :=
  (workerRuns target threadCount rows).flatMap fun run =>
    (keepRows iconv lua plan mem previousAll lua.fresh run).1

theorem runNextScan_serves (hread : ReadsMemory target mem) (hall : plan.config.valueType ≠ .all)
    (hplan : Planned disk requested previous plan) {s : ℕ}
    (hopen : Opened disk previousAll s parts previous) (hmax : parts.flatten.length ≤ sizeMax)
    (hs : s ≤ sizeMax) {resultDir : String} (hdir : NewScanDir disk resultDir) (threadCount : ℤ) :
    Serves (runNextScan iconv lua target plan disk threadCount resultDir previous).2
      plan.valueSize
      (workersKeep iconv lua target plan mem previousAll threadCount parts.flatten)
      (runNextScan iconv lua target plan disk threadCount resultDir previous).1 := by
  have hkeep := @keepRows_keeping iconv σ lua target plan mem previousAll hread hall hplan.valueSize
  obtain ⟨parts', hopened, hflat⟩ := runNextScan_opened hkeep hplan (fun h => by cases h) hopen hmax
    hs hdir threadCount
  have hserves := hopened.serves
  rwa [hflat] at hserves

/-- The row a scan leaves of a previous one, where it leaves one: in range, readable, and
matching what it held before.  A row of an all-type result must have the type in its mask. -/
def filteredRow (iconv : String → List UInt8 → Option (List UInt8)) (lua : FormulaEvaluator σ)
    (plan : NextPlan) (mem : Memory) (previousAll : Bool) (row : ScanRow) : Option ScanRow :=
  let config := plan.config
  let typed := previousAll = true → row.mask &&& allCandidateFor config.valueType ≠ 0
  if typed ∧ config.startAddress ≤ row.address
      ∧ row.address.toNat + plan.valueSize - 1 ≤ config.stopAddress.toNat then
    (readBytes mem row.address.toNat plan.valueSize).bind fun current =>
      if (nextScanCompare iconv lua config plan.valueSize current row.value row.first plan.needles
          lua.fresh).1 then
        some ⟨row.address, current, row.first.take plan.valueSize, 0⟩
      else none
  else none

/-- The outcome of a formula for a row does not depend on the rows before. -/
def FormulaEvaluator.Stateless (lua : FormulaEvaluator σ) : Prop :=
  ∀ st current old, (lua.eval st current old true).1 = (lua.eval lua.fresh current old true).1

theorem nextScanCompare_stateless
    (hlua : plan.config.valueType = .custom → plan.config.compareType = .exact → lua.Stateless)
    (current old first : List UInt8) (st : σ) :
    (nextScanCompare iconv lua plan.config plan.valueSize current old first plan.needles st).1 =
      (nextScanCompare iconv lua plan.config plan.valueSize current old first plan.needles
        lua.fresh).1 := by
  unfold nextScanCompare
  dsimp only
  split
  case h_13 hv =>
    split
    · rename_i hexact
      split
      · rfl
      · exact congrArg (·.getD false) (hlua hv hexact st _ _)
    · rfl
  all_goals rfl

theorem selectRow_isNone (hall : plan.config.valueType ≠ .all) (hpos : 0 < plan.valueSize)
    (row : ScanRow) :
    (selectRow plan previousAll row.address row.mask).isNone = true ↔
      ¬ ((previousAll = true → row.mask &&& allCandidateFor plan.config.valueType ≠ 0) ∧
        plan.config.startAddress ≤ row.address ∧
        row.address.toNat + plan.valueSize - 1 ≤ plan.config.stopAddress.toNat) := by
  have hsub : row.address ≤ plan.config.stopAddress →
      (plan.config.stopAddress - row.address).toNat
        = plan.config.stopAddress.toNat - row.address.toNat := UInt64.toNat_sub_of_le _ _
  simp only [selectRow, hall, decide_false, Bool.not_false, Bool.and_true, Bool.and_eq_true,
    beq_iff_eq, Bool.false_eq_true, if_false, Bool.or_eq_true, decide_eq_true_eq]
  by_cases htyped : previousAll = true ∧ row.mask &&& allCandidateFor plan.config.valueType = 0
  · simp [htyped.1, htyped.2]
  · rw [if_neg htyped]
    have htyped' : previousAll = true → row.mask &&& allCandidateFor plan.config.valueType ≠ 0 :=
      fun h h0 => htyped ⟨h, h0⟩
    by_cases hrange : row.address < plan.config.startAddress ∨ row.address > plan.config.stopAddress
    · rw [if_pos hrange]
      simp only [Option.isNone_none, true_iff, not_and]
      intro _ hlow hhigh
      rcases hrange with h | h
      · exact absurd (UInt64.not_lt.mpr hlow) (not_not.mpr h)
      · have := UInt64.lt_iff_toNat_lt.mp h
        omega
    · rw [if_neg hrange]
      rw [not_or, UInt64.not_lt, gt_iff_lt, UInt64.not_lt] at hrange
      have hle := UInt64.le_iff_toNat_le.mp hrange.2
      rw [hsub hrange.2]
      by_cases hfit : plan.valueSize - 1 > plan.config.stopAddress.toNat - row.address.toNat
      · rw [if_pos hfit]
        simp only [Option.isNone_none, true_iff, not_and]
        intro _ _
        omega
      · rw [if_neg hfit]
        simp only [Option.isNone_some, Bool.false_eq_true, false_iff, not_not]
        exact ⟨htyped', hrange.1, by omega⟩

theorem keepRow_stateless (hall : plan.config.valueType ≠ .all) (hpos : 0 < plan.valueSize)
    (hlua : plan.config.valueType = .custom → plan.config.compareType = .exact → lua.Stateless)
    (row : ScanRow) (st : σ) :
    (keepRow iconv lua plan mem previousAll row st).1 =
      filteredRow iconv lua plan mem previousAll row := by
  have hsel := @selectRow_isNone plan previousAll hall hpos row
  rw [keepRow, filteredRow]
  by_cases hnone : (selectRow plan previousAll row.address row.mask).isNone = true
  · rw [if_pos hnone]
    dsimp only
    rw [if_neg (hsel.mp hnone)]
  · rw [if_neg hnone]
    dsimp only
    rw [if_pos (not_not.mp fun h => hnone (hsel.mpr h))]
    cases hread : readBytes mem row.address.toNat plan.valueSize with
    | none => rfl
    | some current =>
      dsimp only [Option.bind_some]
      rw [nextScanCompare_stateless hlua]

theorem keepRows_stateless (hall : plan.config.valueType ≠ .all) (hpos : 0 < plan.valueSize)
    (hlua : plan.config.valueType = .custom → plan.config.compareType = .exact → lua.Stateless)
    (rows : List ScanRow) (st : σ) :
    (keepRows iconv lua plan mem previousAll st rows).1 =
      rows.filterMap (filteredRow iconv lua plan mem previousAll) := by
  induction rows generalizing st with
  | nil => rfl
  | cons row rows ih =>
    rw [keepRows, ih, keepRow_stateless hall hpos hlua]
    cases hrow : filteredRow iconv lua plan mem previousAll row with
    | none => rw [List.filterMap_cons_none hrow]; rfl
    | some kept => rw [List.filterMap_cons_some hrow]; rfl

theorem nextScan_eq {resultDir : String} {threadCount : ℤ}
    (hplan : nextScanPlan iconv target.description disk requested previous = .ok plan) :
    nextScan iconv lua target disk threadCount resultDir requested previous =
      .ok (runNextScan iconv lua target plan disk threadCount resultDir previous) := by
  rw [nextScan, hplan]
  rfl

/-- The result of a next scan is the previous result, filtered. -/
theorem nextScan_filters (hread : ReadsMemory target mem) {s : ℕ}
    (hopen : Opened disk previousAll s parts previous) (hmax : parts.flatten.length ≤ sizeMax)
    (hs : s ≤ sizeMax) {resultDir : String} (hdir : NewScanDir disk resultDir) (threadCount : ℤ)
    (hplan : nextScanPlan iconv target.description disk requested previous = .ok plan)
    (hall : requested.valueType ≠ .all)
    (hlua : plan.config.valueType = .custom → plan.config.compareType = .exact → lua.Stateless) :
    ∃ r disk', nextScan iconv lua target disk threadCount resultDir requested previous
        = .ok (r, disk') ∧
      Serves disk' plan.valueSize
        (parts.flatten.filterMap (filteredRow iconv lua plan mem previousAll)) r := by
  have hplanned := nextScanPlan_ok hplan
  have hall' : plan.config.valueType ≠ .all := hplanned.config.valueType ▸ hall
  have hserves := @runNextScan_serves iconv σ lua target plan mem previousAll disk requested parts
    previous hread hall' hplanned s hopen hmax hs resultDir hdir threadCount
  have hkeep : workersKeep iconv lua target plan mem previousAll threadCount parts.flatten =
      parts.flatten.filterMap (filteredRow iconv lua plan mem previousAll) := by
    rw [workersKeep]
    simp only [keepRows_stateless hall' hplanned.valueSize hlua]
    rw [List.flatMap_def, ← List.filterMap_flatten, workerRuns_flatten]
  rw [hkeep] at hserves
  exact ⟨_, _, nextScan_eq hplan, hserves⟩

end Scan

/-- No text needs another encoding here. -/
def noConversion : String → List UInt8 → Option (List UInt8) := fun _ _ => none

/-- A target whose `readMany` reads `mem`. -/
def memoryTarget (mem : Memory) : ScanTarget where
  readMany addresses size := addresses.map fun address => readBytes mem address.toNat size

def oldDisk (files : ResultDir) : Disk := fun d => if d = "/old" then files else {}

theorem newScanDir_of_empty {disk : Disk} {dir : String} (hline : '\n' ∉ dir.toList)
    (h : ∀ d : String, dir.toList <+: d.toList → disk d = {}) : NewScanDir disk dir := by
  refine ⟨hline, h _ ?_, fun t => h _ ?_⟩
  · rw [resultsDir_toList]
    exact List.prefix_append _ _
  · rw [workerDir_toList]
    exact List.prefix_append _ _

theorem oldDisk_empty (files : ResultDir) {d : String} (h : ['/', 'n'] <+: d.toList) :
    oldDisk files d = {} := by
  refine if_neg ?_
  rintro rfl
  revert h
  decide

theorem oldDisk_new (files : ResultDir) : NewScanDir (oldDisk files) "/new" :=
  newScanDir_of_empty (by decide) fun _ h => oldDisk_empty files (List.IsPrefix.trans (by decide) h)

theorem StoreRun.finished_noFormat (run : StoreRun) : run.finished.1.format = none := by
  rw [StoreRun.finished, finalize_same, (addRows_same false run.rows _).2]
  rfl

/-- Two 4-byte values, one of which has grown. -/
theorem nextScan_filters_increased :
    let run : StoreRun := ⟨"/old", false, [⟨0x1000, [5, 0, 0, 0], [5, 0, 0, 0], 0⟩,
      ⟨0x2000, [7, 0, 0, 0], [7, 0, 0, 0], 0⟩]⟩
    let mem : Memory := fun a => some (if a = 0x1000 then 6 else if a = 0x2000 then 7 else 0)
    let requested : ScanConfig := { compareType := .increased }
    let lua : FormulaEvaluator Unit := ⟨(), fun st _ _ _ => (none, st)⟩
    ∃ r disk', nextScan noConversion lua (memoryTarget mem) (oldDisk run.finished.2) 8 "/new" requested run.finished.1
        = .ok (r, disk') ∧
      Serves disk' 4 [⟨0x1000, [6, 0, 0, 0], [5, 0, 0, 0], 0⟩] r := by
  intro run mem requested lua
  have hrows : RowsOfSize false 4 run.rows := ⟨by decide, by decide, by decide, fun h => by cases h⟩
  have hfin := run.finished_spec hrows (by decide)
  have hopen : Opened (oldDisk run.finished.2) false 4 [run.rows] run.finished.1 :=
    @Finished.opened _ _ _ _ _ _ _ hfin (oldDisk run.finished.2) (if_pos rfl)
  have hstride : run.finished.1.recordStride (oldDisk run.finished.2) = 4 := hopen.recordStride_eq (by decide)
  have hplan : nextScanPlan noConversion (memoryTarget mem).description
      (oldDisk run.finished.2) requested
      run.finished.1 = .ok ⟨withTargetFormat {} requested, 4, 4, {}⟩ := by
    simp only [nextScanPlan, hfin.writeError, hfin.count, hfin.hasAllTypes, hstride,
      checkDataFormat, run.finished_noFormat]
    rfl
  have := @nextScan_filters noConversion Unit lua (memoryTarget mem) _ mem false
    (oldDisk run.finished.2) requested _ _
    (fun _ _ => rfl) 4 hopen (by decide) (by decide) "/new" (oldDisk_new _) 8 hplan (by decide)
    (fun h => by cases h)
  have hkept : [run.rows].flatten.filterMap (filteredRow noConversion lua
      ⟨withTargetFormat {} requested, 4, 4, {}⟩ mem false)
      = [⟨0x1000, [6, 0, 0, 0], [5, 0, 0, 0], 0⟩] := by
    decide
  rw [hkept] at this
  exact this

def allTypeResult (row : ScanRow) : ScanResult × ResultDir :=
  let start := create "/old" false {}
  let start := start.1.enableAllTypeCandidates start.2
  let st := [row].foldl (addRow true) start
  st.1.finalize st.2

theorem allTypeResult_finished {row : ScanRow} (hrow : RowsOfSize true 8 [row]) :
    Finished true false 8 [row] "/old" (allTypeResult row).1 (allTypeResult row).2 ∧
      (allTypeResult row).1.format = none := by
  have hw := written_addRows (written_enableAllTypeCandidates (written_create "/old" false 8)) hrow
  have hfin := finished_finalize hw hrow (by simp [sizeMax])
  obtain ⟨h1, h2⟩ := addRows_same true [row]
    ((create "/old" false {}).1.enableAllTypeCandidates (create "/old" false {}).2)
  rw [h1] at hfin
  exact ⟨hfin, by rw [allTypeResult, finalize_same, h2]; rfl⟩

/-- Two rows the claim keeps and the scan drops: one whose type is not in the mask of its
all-type row, and one whose formula counts the rows before it. -/
theorem nextScan_drops_rows :
    (let row : ScanRow := ⟨0x1000, [5, 0, 0, 0, 0, 0, 0, 0], [5, 0, 0, 0, 0, 0, 0, 0], 1⟩
      let old := allTypeResult row
      let mem : Memory := fun a => some (if a = 0x1000 then 5 else 0)
      let requested : ScanConfig := { valueType := .int64, compareType := .unchanged }
      let lua : FormulaEvaluator Unit := ⟨(), fun st _ _ _ => (none, st)⟩
      let plan : NextPlan := ⟨withTargetFormat {} requested, 8, 8, {}⟩
      Opened (oldDisk old.2) true 8 [[row]] old.1 ∧
      nextScanPlan noConversion (memoryTarget mem).description (oldDisk old.2) requested old.1
        = .ok plan ∧
      readBytes mem row.address.toNat 8 = some row.value ∧
      (nextScanCompare noConversion lua plan.config 8 row.value row.value row.first plan.needles
        lua.fresh).1 = true ∧
      ∃ r disk', nextScan noConversion lua (memoryTarget mem) (oldDisk old.2) 1 "/new" requested
        old.1 = .ok (r, disk') ∧ r.count = 0) ∧
    (let run : StoreRun := ⟨"/old", false, [⟨0x1000, [5], [5], 0⟩, ⟨0x2000, [7], [7], 0⟩]⟩
      let mem : Memory := fun _ => some 0
      let requested : ScanConfig :=
        { valueType := .custom, customFormula := "n = (n or 0) + 1; return n == 1"
          customValueSize := 1 }
      let lua : FormulaEvaluator ℕ := ⟨0, fun n _ _ _ => (some (n == 0), n + 1)⟩
      let plan : NextPlan := ⟨withTargetFormat {} requested, 1, 1, {}⟩
      Opened (oldDisk run.finished.2) false 1 [run.rows] run.finished.1 ∧
      nextScanPlan noConversion (memoryTarget mem).description (oldDisk run.finished.2) requested
        run.finished.1 = .ok plan ∧
      (∀ row ∈ run.rows, readBytes mem row.address.toNat 1 = some [0] ∧
        (nextScanCompare noConversion lua plan.config 1 [0] row.value row.first plan.needles
          lua.fresh).1 = true) ∧
      ∃ r disk', nextScan noConversion lua (memoryTarget mem) (oldDisk run.finished.2) 1 "/new"
        requested run.finished.1 = .ok (r, disk') ∧ r.count = 1) := by
  refine ⟨?_, ?_⟩
  · intro row old mem requested lua plan
    have hrow : RowsOfSize true 8 [row] := ⟨by decide, by decide, by decide, fun _ => by decide⟩
    obtain ⟨hfin, hformat⟩ := allTypeResult_finished hrow
    have hopen : Opened (oldDisk old.2) true 8 [[row]] old.1 :=
      @Finished.opened _ _ _ _ _ _ _ hfin (oldDisk old.2) (if_pos rfl)
    have hstride : old.1.recordStride (oldDisk old.2) = 8 := hopen.recordStride_eq (by decide)
    have hplan : nextScanPlan noConversion (memoryTarget mem).description (oldDisk old.2) requested
        old.1 = .ok plan := by
      simp only [nextScanPlan, old, hfin.writeError, hfin.count, hfin.hasAllTypes, checkDataFormat,
        hformat]
      rw [hstride]
      rfl
    have hserves := @runNextScan_serves noConversion Unit lua (memoryTarget mem) plan mem true
      (oldDisk old.2) requested _ _ (fun _ _ => rfl) (by decide) (nextScanPlan_ok hplan) 8 hopen
      (by decide) (by decide) "/new" (oldDisk_new _) 1
    have hscan := @nextScan_eq noConversion Unit lua (memoryTarget mem) plan (oldDisk old.2)
      requested old.1 "/new" 1 hplan
    generalize runNextScan noConversion lua (memoryTarget mem) plan (oldDisk old.2) 1 "/new" old.1
      = out at hserves hscan
    exact ⟨hopen, hplan, by decide, by decide, out.1, out.2, hscan,
      hserves.count.trans (by decide)⟩
  · intro run mem requested lua plan
    have hrows : RowsOfSize false 1 run.rows :=
      ⟨by decide, by decide, by decide, fun h => by cases h⟩
    have hfin := run.finished_spec hrows (by decide)
    have hopen : Opened (oldDisk run.finished.2) false 1 [run.rows] run.finished.1 :=
      @Finished.opened _ _ _ _ _ _ _ hfin (oldDisk run.finished.2) (if_pos rfl)
    have hstride : run.finished.1.recordStride (oldDisk run.finished.2) = 1 :=
      hopen.recordStride_eq (by decide)
    have hplan : nextScanPlan noConversion (memoryTarget mem).description
        (oldDisk run.finished.2) requested run.finished.1 = .ok plan := by
      simp only [nextScanPlan, hfin.writeError, hfin.count, hfin.hasAllTypes, checkDataFormat,
        run.finished_noFormat, hstride]
      rfl
    have hserves := @runNextScan_serves noConversion ℕ lua (memoryTarget mem) plan mem false
      (oldDisk run.finished.2) requested _ _ (fun _ _ => rfl) (by decide) (nextScanPlan_ok hplan) 1
      hopen (by decide) (by decide) "/new" (oldDisk_new _) 1
    have hscan := @nextScan_eq noConversion ℕ lua (memoryTarget mem) plan
      (oldDisk run.finished.2) requested run.finished.1 "/new" 1 hplan
    generalize runNextScan noConversion lua (memoryTarget mem) plan (oldDisk run.finished.2) 1 "/new"
      run.finished.1 = out at hserves hscan
    exact ⟨hopen, hplan, by decide, out.1, out.2, hscan,
      hserves.count.trans (by decide)⟩

/-! ### Sessions -/

section Session

variable (iconv : String → List UInt8 → Option (List UInt8)) {σ : Type} (lua : FormulaEvaluator σ)

/-- A next scan of a session: the process as the scan met it, and what was planned. -/
structure Narrowing where
  requested : ScanConfig
  target : ScanTarget
  mem : Memory
  threadCount : ℤ
  resultDir : String
  plan : NextPlan
  reads : ReadsMemory target mem
  typed : requested.valueType ≠ .all
  size : plan.valueSize ≤ sizeMax

/-- Next scans that succeed one after the other, each over the result of the one before. -/
inductive Session : Disk → ScanResult → List Narrowing → Disk → ScanResult → Prop
  | done (disk : Disk) (r : ScanResult) : Session disk r [] disk r
  | scan {disk disk' : Disk} {r r' : ScanResult} {n : Narrowing} {rest : List Narrowing}
      {out : ScanResult × Disk} (dir : NewScanDir disk n.resultDir)
      (planned : nextScanPlan iconv n.target.description disk n.requested r = .ok n.plan)
      (stateless : n.plan.config.valueType = .custom → n.plan.config.compareType = .exact →
        lua.Stateless)
      (scanned : nextScan iconv lua n.target disk n.threadCount n.resultDir n.requested r = .ok out)
      (later : Session out.2 out.1 rest disk' r') : Session disk r (n :: rest) disk' r'

def narrowedRow (row : ScanRow) (scans : List Narrowing) : Option ScanRow :=
  scans.foldlM (fun row n => filteredRow iconv lua n.plan n.mem false row) row

variable {iconv lua}

theorem Session.opened {disk disk' : Disk} {r r' : ScanResult} {scans : List Narrowing}
    (h : Session iconv lua disk r scans disk' r') {s : ℕ} {parts : List (List ScanRow)}
    (hopen : Opened disk false s parts r) (hmax : parts.flatten.length ≤ sizeMax)
    (hs : s ≤ sizeMax) :
    ∃ parts', Opened disk' false (scans.foldl (fun _ n => n.plan.valueSize) s) parts' r' ∧
      parts'.flatten = parts.flatten.filterMap fun row => narrowedRow iconv lua row scans := by
  induction h generalizing s parts with
  | done disk r => exact ⟨parts, hopen, List.filterMap_some.symm⟩
  | @scan _ _ _ _ n rest _ hdir hplan hlua hscan _ ih =>
    have hplanned := nextScanPlan_ok hplan
    have hall : n.plan.config.valueType ≠ .all := hplanned.config.valueType ▸ n.typed
    have hkeep := @keepRows_keeping iconv σ lua n.target n.plan n.mem false n.reads hall
      hplanned.valueSize
    obtain ⟨parts₁, hopened, hflat⟩ := runNextScan_opened hkeep hplanned (fun h => by cases h)
      hopen hmax hs hdir n.threadCount
    rw [nextScan_eq hplan] at hscan
    rw [Except.ok.inj hscan] at hopened
    simp only [keepRows_stateless hall hplanned.valueSize hlua] at hflat
    rw [List.flatMap_def, ← List.filterMap_flatten, workerRuns_flatten] at hflat
    have hmax₁ : parts₁.flatten.length ≤ sizeMax := by
      rw [hflat]
      exact (List.length_filterMap_le _ _).trans hmax
    obtain ⟨parts', hopened', hflat'⟩ := ih hopened hmax₁ n.size
    refine ⟨parts', hopened', ?_⟩
    rw [hflat', hflat, List.filterMap_filterMap]
    exact rfl

end Session

end CheatEngine
