import CheatEngineLinux.Scanner.NextScanFilter

/-!
# Removing rows from a result

`pruneScanResult` copies the rows of a result that are not marked into a new one, batch by batch:
the addresses, values, first values and masks are decoded from the old shards and encoded again.

* `pruneScanResult` — the copy;
* `pruneRows_eq`, `pruneLoop_eq` — **PROVED**: a batch, and all batches, add the unmarked rows;
* `Opened.allTypeCandidates_eq` — **PROVED**: the reader of single masks;
* `prune_keeps_unmarked` — **PROVED**: the new result holds exactly the unmarked rows, in order.
-/

namespace CheatEngine

open RecordFile ScanResult Slices

/-! ### The copy -/

/-- Rows that are read at once. -/
def pruneBatch (valueSize : ℕ) : ℕ := max 1 (min 4096 (65536 / max 1 valueSize))

/-- Copy the `n` rows of a batch that are not marked; the first of them is row `idx`. -/
def pruneRows (all : Bool) (remove : List Bool) (valueSize idx : ℕ) (batch : ReadBatch) (n : ℕ)
    (out : ScanResult × ResultDir) : ScanResult × ResultDir :=
  (List.range n).foldl (fun out j =>
    if remove.getD (idx + j) false then out
    else if all then
      out.1.addAllTypeResult out.2 (batch.addrs.getD j 0) (recordAt valueSize batch.oldVals j)
        (recordAt valueSize batch.firstVals j) (batch.candidates.getD j 0)
    else
      out.1.addResult out.2 (batch.addrs.getD j 0) (recordAt valueSize batch.oldVals j)
        (recordAt valueSize batch.firstVals j) valueSize) out

/-- The rows from `idx` on, batch by batch. -/
def pruneLoop (reader : ShardReader) (all : Bool) (remove : List Bool) (valueSize n idx : ℕ)
    (out : ScanResult × ResultDir) : ScanResult × ResultDir :=
  if idx < n then
    let count := min (pruneBatch valueSize) (n - idx)
    match if reader.ok then reader.read idx count valueSize all else none with
    | none => ({ out.1 with writeError := true }, out.2)
    | some batch =>
      pruneLoop reader all remove valueSize n (idx + count)
        (pruneRows all remove valueSize idx batch count out)
  else out
termination_by n - idx
decreasing_by
  simp only [pruneBatch]
  omega

/-- `pruneScanResult`; `resultDir` is the new directory it was given. -/
def pruneScanResult (disk : Disk) (resultDir : String) (src : ScanResult) (valueSize : ℕ)
    (remove : List Bool) : Except String (ScanResult × Disk) :=
  if src.writeError || valueSize == 0 || (src.count != 0 && src.recordStride disk != valueSize) then
    .error "cannot prune incomplete results or change their value size"
  else
    let results := resultsDir resultDir
    let (r, files) := openDir disk results true
    let (r, files) := match src.format with
      | some (order, width) => r.setDataFormat files order width
      | none => (r, files)
    let all := src.hasAllTypes
    let (r, files) := if all then r.enableAllTypeCandidates files else (r, files)
    let n := src.count
    let (r, files) :=
      if src.writeError || (n != 0 && (valueSize == 0 || src.recordStride disk != valueSize)) then
        ({ r with writeError := true }, files)
      else pruneLoop (ShardReader.create disk src.shardLayout all) all remove valueSize n 0 (r, files)
    let (r, files) := r.finalize files
    .ok (r, disk.put results files)

/-! ### The rows that stay -/

/-- The rows whose index is not marked; the first row has index `idx`. -/
def unmarkedFrom (remove : List Bool) (idx : ℕ) (rows : List ScanRow) : List ScanRow :=
  ((rows.zipIdx idx).filter fun p => !remove.getD p.2 false).map Prod.fst

def unmarked (remove : List Bool) (rows : List ScanRow) : List ScanRow := unmarkedFrom remove 0 rows

theorem unmarkedFrom_append (remove : List Bool) (idx : ℕ) (rows rows' : List ScanRow) :
    unmarkedFrom remove idx (rows ++ rows')
      = unmarkedFrom remove idx rows ++ unmarkedFrom remove (idx + rows.length) rows' := by
  unfold unmarkedFrom
  rw [List.zipIdx_append, List.filter_append, List.map_append]

theorem mem_unmarkedFrom {remove : List Bool} {idx : ℕ} {rows : List ScanRow} {row : ScanRow}
    (h : row ∈ unmarkedFrom remove idx rows) : row ∈ rows := by
  obtain ⟨p, hp, rfl⟩ := List.mem_map.mp h
  exact List.fst_mem_of_mem_zipIdx (List.mem_of_mem_filter hp)

theorem unmarkedFrom_length (remove : List Bool) (idx : ℕ) (rows : List ScanRow) :
    (unmarkedFrom remove idx rows).length ≤ rows.length := by
  unfold unmarkedFrom
  rw [List.length_map]
  exact (List.length_filter_le _ _).trans (List.length_zipIdx).le

section copy

variable {all : Bool} {s : ℕ} (remove : List Bool)

theorem pruneRows_eq {rows : List ScanRow} (hrows : RowsOfSize all s rows) (idx : ℕ)
    (out : ScanResult × ResultDir) :
    pruneRows all remove s idx (batchOf rows all) rows.length out
      = (unmarkedFrom remove idx rows).foldl (addRow all) out := by
  have hlength : rows.length = (rows.zipIdx idx).length := List.length_zipIdx.symm
  unfold pruneRows unmarkedFrom
  rw [List.foldl_map, List.foldl_filter, hlength]
  refine foldl_range (fun j p out hj => ?_) out
  obtain ⟨row, i⟩ := p
  obtain ⟨hi, hrow⟩ : i = idx + j ∧ rows[j]? = some row := by
    rw [List.getElem?_zipIdx, Option.map_eq_some_iff] at hj
    obtain ⟨a, ha, heq⟩ := hj
    obtain ⟨rfl, rfl⟩ := Prod.mk.inj heq
    exact ⟨rfl, ha⟩
  subst hi
  have haddr : (batchOf rows all).addrs.getD j 0 = row.address := by
    rw [List.getD_eq_getElem?_getD, batchOf, List.getElem?_map, hrow]
    rfl
  have hold : recordAt s (batchOf rows all).oldVals j = row.value := recordAt_flatMap hrows.value hrow
  have hfirst : recordAt s (batchOf rows all).firstVals j = row.first := recordAt_flatMap hrows.first hrow
  have hsize := hrows.value row (List.mem_of_getElem? hrow)
  dsimp only
  rw [haddr, hold, hfirst]
  cases remove.getD (idx + j) false with
  | true => rfl
  | false =>
    cases all with
    | false =>
      show out.1.addResult out.2 row.address row.value row.first s = addRow false out row
      rw [addRow, hsize]
      rfl
    | true =>
      have hmask : (batchOf rows true).candidates.getD j 0 = row.mask := by
        rw [List.getD_eq_getElem?_getD, batchOf, if_pos rfl, List.getElem?_map, hrow]
        rfl
      rw [hmask]
      rfl

/-- The loop adds the unmarked rows from `idx` on. -/
theorem pruneLoop_eq {rows : List ScanRow} (hrows : RowsOfSize all s rows) {reader : ShardReader}
    (hok : reader.ok = true)
    (hreader : ∀ i n, i + n ≤ rows.length → reader.read i n s all = some (batchOf ((rows.drop i).take n) all))
    (idx : ℕ) (hidx : idx ≤ rows.length) (out : ScanResult × ResultDir) :
    pruneLoop reader all remove s rows.length idx out
      = (unmarkedFrom remove idx (rows.drop idx)).foldl (addRow all) out := by
  -- induction on the rows left, one batch at a time
  induction hk : rows.length - idx using Nat.strong_induction_on generalizing idx out with
  | _ k ih =>
    rw [pruneLoop]
    by_cases hlt : idx < rows.length
    · rw [if_pos hlt]
      dsimp only
      set n := min (pruneBatch s) (rows.length - idx) with hn
      have hn1 : 0 < n := by
        rw [hn, pruneBatch]
        omega
      have hn2 : idx + n ≤ rows.length := by omega
      have hlen : ((rows.drop idx).take n).length = n := by
        rw [List.length_take, List.length_drop]
        omega
      have hsized : RowsOfSize all s ((rows.drop idx).take n) :=
        hrows.of_subset fun row hrow => List.mem_of_mem_drop (List.mem_of_mem_take hrow)
      have hstep := pruneRows_eq remove hsized idx out
      rw [hlen] at hstep
      have hsplit : rows.drop idx = (rows.drop idx).take n ++ rows.drop (idx + n) := by
        rw [← List.drop_drop, List.take_append_drop]
      rw [if_pos hok, hreader idx n hn2]
      dsimp only
      rw [hstep, ih (rows.length - (idx + n)) (by omega) (idx + n) hn2 _ rfl]
      conv_rhs => rw [hsplit, unmarkedFrom_append, hlen, List.foldl_append]
    · have hend : rows.drop idx = [] := List.drop_eq_nil_of_le (by omega)
      rw [if_neg hlt, hend]
      rfl

end copy

/-! ### The masks of an opened result -/

theorem Opened.allTypeCandidates_eq {disk : Disk} {s : ℕ} {parts : List (List ScanRow)} {r : ScanResult}
    (h : Opened disk true s parts r) {i : ℕ} {row : ScanRow} (hi : parts.flatten[i]? = some row) :
    r.allTypeCandidates disk i = row.mask := by
  obtain ⟨sh, rows, j, hfind, hstored, hj, hcount, hrow⟩ := h.shards.find hi
  rw [Nat.zero_add] at hfind hj
  have hmasks : (disk sh.dir).allTypes = some (rows.map ScanRow.mask) := hstored.masks
  have hgood := (hstored.sized.masks rfl).2 row (List.mem_of_getElem? hrow)
  have hopened : openAllTypeCandidates (disk sh.dir) sh.count false = .opened (rows.map ScanRow.mask) := by
    simp [openAllTypeCandidates, hmasks, hcount]
  have hget : (rows.map ScanRow.mask).getD (i - sh.cum) 0 = row.mask := by
    rw [show i - sh.cum = j by omega, List.getD_eq_getElem?_getD, List.getElem?_map, hrow]
    rfl
  rw [allTypeCandidates, shardAt, hfind]
  dsimp only
  rw [if_neg (by simp [h.hasAllTypes]), hopened]
  dsimp only
  rw [hget, if_neg (by simp [hgood])]

/-! ### The pruned result -/

/-- A complete result: its shards hold the rows, its count is a `size_t`, and its sample format is
one that `setDataFormat` records. -/
structure CompleteResult (disk : Disk) (all : Bool) (s : ℕ) (parts : List (List ScanRow)) (r : ScanResult) :
    Prop where
  opened : Opened disk all s parts r
  count : parts.flatten.length ≤ sizeMax
  format : ∀ f ∈ r.format, f.2 = 0 ∨ f.2 = 4 ∨ f.2 = 8

/-- A result that holds `rows`, column by column. -/
structure HoldsRows (disk : Disk) (all : Bool) (s : ℕ) (rows : List ScanRow) (r : ScanResult) : Prop where
  count : r.count = rows.length
  writeError : r.writeError = false
  hasAllTypes : r.hasAllTypes = all
  address : ∀ i row, rows[i]? = some row → r.address disk i = row.address
  value : ∀ i row, rows[i]? = some row → r.value disk i s = row.value
  firstValue : ∀ i row, rows[i]? = some row → r.firstValue disk i s = row.first
  mask : all = true → ∀ i row, rows[i]? = some row → r.allTypeCandidates disk i = row.mask

theorem Opened.holdsRows {disk : Disk} {all : Bool} {s : ℕ} {parts : List (List ScanRow)} {r : ScanResult}
    (h : Opened disk all s parts r) : HoldsRows disk all s parts.flatten r where
  count := h.count
  writeError := h.writeError
  hasAllTypes := h.hasAllTypes
  address _ _ hi := h.address_eq hi
  value _ _ hi := h.value_eq hi
  firstValue _ _ hi := h.firstValue_eq hi
  mask hall _ _ hi := by
    subst hall
    exact h.allTypeCandidates_eq hi

theorem written_pruneStart {disk : Disk} {dir : String} (hdir : disk dir = {}) {src : ScanResult} (s : ℕ)
    (hformat : ∀ f ∈ src.format, f.2 = 0 ∨ f.2 = 4 ∨ f.2 = 8) :
    ∃ st : ScanResult × ResultDir,
      (let (r, files) := openDir disk dir true
       let (r, files) := match src.format with
         | some (order, width) => r.setDataFormat files order width
         | none => (r, files)
       if src.hasAllTypes then r.enableAllTypeCandidates files else (r, files)) = st ∧
      Written src.hasAllTypes true s [] st.1 st.2 ∧ st.1.format = src.format ∧ st.1.dir = dir := by
  have hcreate : openDir disk dir true = create dir true {} := by
    rw [openDir, hdir]
    rfl
  have hset : ∃ st : ScanResult × ResultDir, (match src.format with
      | some (order, width) => (create dir true {}).1.setDataFormat (create dir true {}).2 order width
      | none => create dir true {}) = st ∧
      Written false true s [] st.1 st.2 ∧ st.1.format = src.format ∧ st.1.dir = dir := by
    refine ⟨_, rfl, ?_⟩
    cases hsrc : src.format with
    | none => exact ⟨written_create dir true s, rfl, rfl⟩
    | some f =>
      obtain ⟨hwritten, hf, hd⟩ := written_setDataFormat (written_create dir true s) f.1 (hformat f (by rw [hsrc]; rfl))
      exact ⟨hwritten, hf, hd⟩
  obtain ⟨⟨r, files⟩, hst, hwritten, hf, hd⟩ := hset
  refine ⟨_, rfl, ?_⟩
  rw [hcreate]
  dsimp only at hst ⊢
  rw [hst]
  dsimp only at hwritten hf hd ⊢
  cases src.hasAllTypes with
  | false => exact ⟨hwritten, hf, hd⟩
  | true =>
    obtain ⟨k1, k2⟩ := @enableAllTypeCandidates_keeps r files
    exact ⟨written_enableAllTypeCandidates hwritten, k2.trans hf, k1.trans hd⟩

/-- Pruning keeps exactly the rows that are not marked, in their order and with all their columns. -/
theorem prune_keeps_unmarked {disk : Disk} {resultDir : String} (hnew : NewScanDir disk resultDir) {all : Bool}
    {s : ℕ} {parts : List (List ScanRow)} {src : ScanResult} (h : CompleteResult disk all s parts src)
    {valueSize : ℕ} (hpos : 0 < valueSize) (hsize : parts.flatten ≠ [] → valueSize = s) (remove : List Bool) :
    ∃ out disk', pruneScanResult disk resultDir src valueSize remove = .ok (out, disk') ∧
      out.format = src.format ∧ HoldsRows disk' all valueSize (unmarked remove parts.flatten) out := by
  have hopen := h.opened
  have hstride : (src.count != 0 && src.recordStride disk != valueSize) = false := by
    by_cases hne : parts.flatten = []
    · rw [hopen.count, hne]
      rfl
    · rw [hopen.recordStride_eq hne, hsize hne, bne_self_eq_false, Bool.and_false]
  -- an empty result has rows of any size, also of the eight bytes that masks need
  obtain ⟨size, hrows, hvalues⟩ : ∃ size, RowsOfSize all size (unmarked remove parts.flatten) ∧
      (parts.flatten ≠ [] → size = valueSize) := by
    by_cases hne : parts.flatten = []
    · refine ⟨8, ?_, fun h => absurd hne h⟩
      rw [hne]
      have hnone : ∀ {p : ScanRow → Prop}, ∀ row ∈ unmarked remove [], p row := fun row hrow => by cases hrow
      exact ⟨by decide, hnone, hnone, fun _ => ⟨rfl, hnone⟩⟩
    · refine ⟨valueSize, ?_, fun _ => rfl⟩
      rw [hsize hne]
      exact (hopen.shards.sized hne).of_subset fun row => mem_unmarkedFrom
  obtain ⟨st, hst, hwritten, hformat, hdir⟩ := written_pruneStart hnew.results size h.format
  have hloop : pruneLoop (ShardReader.create disk src.shardLayout all) all remove valueSize src.count 0 st
      = (unmarked remove parts.flatten).foldl (addRow all) st := by
    rw [hopen.count]
    by_cases hne : parts.flatten = []
    · rw [hne, pruneLoop]
      rfl
    · rw [hsize hne]
      exact pruneLoop_eq remove (hopen.shards.sized hne) hopen.reader_ok (fun i n hin => hopen.read_eq hin)
        0 (Nat.zero_le _) st
  rw [hopen.hasAllTypes] at hwritten
  have hrun := written_addRows hwritten hrows
  obtain ⟨hk1, hk2⟩ := addRows_same all (unmarked remove parts.flatten) st
  have hfin := finished_finalize hrun hrows ((unmarkedFrom_length _ _ _).trans h.count)
  rw [hk1, hdir] at hfin
  set run := (unmarked remove parts.flatten).foldl (addRow all) st with hrunDef
  refine ⟨(run.1.finalize run.2).1, disk.put (resultsDir resultDir) (run.1.finalize run.2).2, ?_, ?_, ?_⟩
  · unfold pruneScanResult
    rw [hopen.writeError, hstride, beq_eq_false_iff_ne.mpr (by omega : valueSize ≠ 0), if_neg (by decide)]
    dsimp only at hst ⊢
    rw [hst, Bool.false_or, Bool.false_or, hstride, if_neg (by decide), hopen.hasAllTypes, hloop]
  · rw [finalize_same, hk2, hformat]
  · have hput : disk.put (resultsDir resultDir) (run.1.finalize run.2).2 (resultsDir resultDir) = (run.1.finalize run.2).2 := by
      simp [Disk.put]
    have hout := (hfin.opened hput).holdsRows
    rw [List.flatten_singleton, List.nil_append, show (unmarked remove parts.flatten).map (ScanRow.kept true) = unmarked remove parts.flatten
      from List.map_id _] at hout
    by_cases hne : parts.flatten = []
    · have hnone : unmarked remove parts.flatten = [] := by
        rw [hne]
        rfl
      rw [hnone] at hout ⊢
      have hno : ∀ {p : ℕ → ScanRow → Prop} (i : ℕ) (row : ScanRow), ([] : List ScanRow)[i]? = some row → p i row :=
        fun i row hi => by cases hi
      exact ⟨hout.count, hout.writeError, hout.hasAllTypes, hno, hno, hno, fun _ => hno⟩
    · rw [hvalues hne] at hout
      exact hout


/-- Two rows with first values. -/
def pairRun : StoreRun := ⟨"/old", true, [⟨0x1000, [1, 0], [2, 0], 0⟩, ⟨0x700000005000, [3, 0], [4, 0], 0⟩]⟩

theorem prune_first_of_two :
    CompleteResult (oldDisk pairRun.finished.2) false 2 [pairRun.kept] pairRun.finished.1 ∧
    ∃ out disk', pruneScanResult (oldDisk pairRun.finished.2) "/new" pairRun.finished.1 2 [true] = .ok (out, disk') ∧
      out.format = none ∧ HoldsRows disk' false 2 [⟨0x700000005000, [3, 0], [4, 0], 0⟩] out := by
  have hrows : RowsOfSize false 2 pairRun.rows :=
    ⟨by decide, by simp [pairRun], by simp [pairRun], fun h => by cases h⟩
  have hfin := pairRun.finished_spec hrows (by decide)
  have hopened : Opened (oldDisk pairRun.finished.2) false 2 [pairRun.kept] pairRun.finished.1 := hfin.opened rfl
  have hcomplete : CompleteResult (oldDisk pairRun.finished.2) false 2 [pairRun.kept] pairRun.finished.1 :=
    ⟨hopened, by decide, fun f hf => by rw [pairRun.finished_noFormat] at hf; cases hf⟩
  obtain ⟨out, disk', hprune, hformat, hholds⟩ :=
    prune_keeps_unmarked (oldDisk_new pairRun.finished.2) hcomplete (by decide) (fun _ => rfl) [true]
  rw [pairRun.finished_noFormat] at hformat
  exact ⟨hcomplete, out, disk', hprune, hformat, hholds⟩

end CheatEngine
