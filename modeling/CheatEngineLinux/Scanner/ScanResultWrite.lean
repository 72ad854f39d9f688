import CheatEngineLinux.Scanner.ScanResultFrames

/-!
# What a writer leaves on disk

The four streams of a result must stay in step over any number of rows, buffer flushes and
frames.

* `Written` — the invariant of a result being written: files and buffers together hold the
  rows added so far;
* `written_addRow` — **PROVED**: adding a row keeps it, through every flush;
* `StoredRows` — a directory holds a list of rows;
* `addRows_finalize` — **PROVED**: a new result after any list of rows and `finalize`.
-/

namespace CheatEngine

open RecordFile ScanResult

/-- One match: where it is, its value and the value of the first scan, and the mask of
candidate types for a scan of all types. -/
structure ScanRow where
  address : UInt64
  value : List UInt8
  first : List UInt8
  mask : UInt8 := 0
  deriving Repr, DecidableEq

/-- A row as a result without first values keeps it. -/
def ScanRow.kept (storeFirst : Bool) (row : ScanRow) : ScanRow :=
  if storeFirst then row else { row with first := row.value }

/-- The rows a result takes: one size, at least one byte, and a mask of types with 8-byte
values for scans of all types. -/
structure RowsOfSize (all : Bool) (s : ℕ) (rows : List ScanRow) : Prop where
  pos : 0 < s
  value : ∀ row ∈ rows, row.value.length = s
  first : ∀ row ∈ rows, row.first.length = s
  masks : all = true → s = 8 ∧ ∀ row ∈ rows, badMask row.mask = false

theorem RowsOfSize.of_subset {all : Bool} {s : ℕ} {rows rows' : List ScanRow}
    (h : RowsOfSize all s rows) (hsub : ∀ row ∈ rows', row ∈ rows) : RowsOfSize all s rows' :=
  ⟨h.pos, fun x hx => h.value x (hsub x hx), fun x hx => h.first x (hsub x hx),
    fun ha => ⟨(h.masks ha).1, fun x hx => (h.masks ha).2 x (hsub x hx)⟩⟩

theorem RowsOfSize.of_cons {all : Bool} {s : ℕ} {row : ScanRow} {rows : List ScanRow}
    (h : RowsOfSize all s (row :: rows)) : RowsOfSize all s [row] ∧ RowsOfSize all s rows :=
  ⟨h.of_subset (by simp), h.of_subset fun _ => List.mem_cons_of_mem _⟩

def ScanResult.addRow (all : Bool) (st : ScanResult × ResultDir) (row : ScanRow) :
    ScanResult × ResultDir :=
  if all then st.1.addAllTypeResult st.2 row.address row.value row.first row.mask
  else st.1.addResult st.2 row.address row.value row.first row.value.length

def ScanResult.frameTable (r : ScanResult) : List (UInt64 × ℕ) :=
  if r.haveFrame then r.frames ++ [(r.curFrameBase, r.curFrameCount)] else r.frames

def offsetBytes (o : UInt32) : List UInt8 := leBytes 4 o.toNat

theorem offsetBytes_length (o : UInt32) : (offsetBytes o).length = 4 := leBytes_length 4 _

structure Written (all sf : Bool) (s : ℕ) (rows : List ScanRow) (r : ScanResult)
    (files : ResultDir) : Prop where
  finalized : r.finalized = false
  writeError : r.writeError = false
  writing : r.writing = true
  storeFirst : r.storeFirst = sf
  hasAllTypes : r.hasAllTypes = all
  count : r.count = rows.length
  valueSize : r.valueSize = if rows.isEmpty then 0 else s
  offsets : ∃ offs, files.offsets = some (offs.flatMap offsetBytes) ∧
    FramesFor r.frameTable (offs ++ r.offsetBuf) (rows.map ScanRow.address)
  values : ∃ done, files.values = some done ∧
    done ++ r.valueBuf = rows.flatMap ScanRow.value
  firstValues : if sf then ∃ done, files.firstValues = some done ∧
      done ++ r.firstValueBuf = rows.flatMap ScanRow.first
    else files.firstValues = none
  masks : if all then r.allTypeOpen = true ∧ r.allTypeBuf.length = r.offsetBuf.length ∧
      ∃ done, files.allTypes = some done ∧ done ++ r.allTypeBuf = rows.map ScanRow.mask
    else files.allTypes = none
  allTypeBuf : all = false → r.allTypeBuf = []
  buffers : r.offsetBuf = [] → r.valueBuf = [] ∧ r.firstValueBuf = []
  frames : files.frames = none
  shards : files.shards = none

section Write

variable {all sf : Bool} {s : ℕ} {rows : List ScanRow} {r : ScanResult} {files : ResultDir}

/-- A new result, without rows. -/
theorem written_create (dir : String) (sf : Bool) (s : ℕ) :
    Written false sf s [] (create dir sf {}).1 (create dir sf {}).2 := by
  refine ⟨rfl, rfl, rfl, rfl, rfl, rfl, rfl, ⟨[], rfl, FramesFor.nil⟩, ⟨[], rfl, rfl⟩, ?_, rfl,
    fun _ => rfl, fun _ => ⟨rfl, rfl⟩, rfl, rfl⟩
  cases sf
  · rfl
  · exact ⟨[], rfl, rfl⟩

/-- Starting the stream of masks on a result without rows. -/
theorem written_enableAllTypeCandidates (h : Written false sf s [] r files) :
    Written true sf s [] (r.enableAllTypeCandidates files).1
      (r.enableAllTypeCandidates files).2 := by
  have hmasks : files.allTypes = none := h.masks
  have hcount : r.count = 0 := h.count
  obtain ⟨offs, -, hframes⟩ := h.offsets
  have hbuf : r.offsetBuf = [] := by
    have := hframes.offs_length
    simp only [List.length_append, List.map_nil, List.length_nil] at this
    exact List.length_eq_zero_iff.mp (by omega)
  have he : r.enableAllTypeCandidates files =
      ({ r with hasAllTypes := true, allTypeOpen := true, allTypeBuf := r.allTypeBuf },
        { files with allTypes := some [] }) := by
    simp [enableAllTypeCandidates, h.hasAllTypes, h.finalized, hcount, hmasks]
  rw [he]
  refine ⟨h.finalized, h.writeError, h.writing, h.storeFirst, rfl, h.count, h.valueSize, h.offsets,
    h.values, h.firstValues, ?_, (fun ha => by cases ha), h.buffers, h.frames, h.shards⟩
  exact ⟨rfl, by rw [h.allTypeBuf rfl, hbuf]; rfl, [], rfl, h.allTypeBuf rfl⟩

/-- Writing the buffers out changes nothing that is held. -/
theorem written_flush (h : Written all sf s rows r files) :
    Written all sf s rows (r.flush files).1 (r.flush files).2 := by
  unfold flush
  split
  · exact h
  · obtain ⟨offs, hoffs, hframes⟩ := h.offsets
    obtain ⟨vals, hvals, hvalues⟩ := h.values
    have hbad : (all && (!r.allTypeOpen || r.allTypeBuf.length != r.offsetBuf.length))
        = false := by
      cases all
      · rfl
      · obtain ⟨ho, hl, -⟩ : _ ∧ _ ∧ _ := h.masks
        simp [ho, hl]
    simp only [hbad, h.writing, h.writeError, h.storeFirst, h.hasAllTypes, Bool.or_false,
      Bool.true_and, Bool.not_false, Bool.and_true, if_true]
    refine ⟨h.finalized, rfl, rfl, rfl, rfl, h.count, h.valueSize, ?_, ?_, ?_, ?_, fun _ => rfl,
      fun _ => ⟨rfl, rfl⟩, h.frames, h.shards⟩
    · refine ⟨offs ++ r.offsetBuf, ?_, ?_⟩
      · rw [hoffs, List.flatMap_append]
        rfl
      · rw [List.append_nil]
        exact hframes
    · refine ⟨vals ++ r.valueBuf, ?_, ?_⟩
      · rw [hvals]
        rfl
      · rw [List.append_nil]
        exact hvalues
    · have hf := h.firstValues
      cases sf
      · exact hf
      · obtain ⟨done, hd, hrows⟩ : ∃ _, _ := hf
        exact ⟨done ++ r.firstValueBuf, by rw [hd]; rfl, by rw [List.append_nil]; exact hrows⟩
    · have hm := h.masks
      cases all
      · exact hm
      · obtain ⟨ho, hl, done, hd, hrows⟩ : _ ∧ _ ∧ ∃ _, _ := hm
        exact ⟨ho, rfl, done ++ r.allTypeBuf, by rw [hd]; rfl, by rw [List.append_nil]; exact hrows⟩

theorem openFrame_framesFor {offs : List UInt32} {addrs : List UInt64}
    (h : FramesFor r.frameTable offs addrs) (addr : UInt64) :
    let r' := r.openFrame addr
    r'.haveFrame = true ∧
      FramesFor (r'.frames ++ [(r'.curFrameBase, r'.curFrameCount + 1)])
        (offs ++ [(addr - r'.curFrameBase).toUInt32]) (addrs ++ [addr]) := by
  unfold openFrame
  split
  · refine ⟨rfl, ?_⟩
    have hc := h.concat addr
    simp only [UInt64.sub_self]
    exact hc
  · rename_i hopen
    simp only [Bool.or_eq_true, Bool.not_eq_true', decide_eq_true_eq, not_or, Bool.not_eq_false,
      UInt64.not_lt, ge_iff_le, UInt64.not_le] at hopen
    obtain ⟨⟨hhave, hle⟩, hlt⟩ := hopen
    rw [frameTable, if_pos hhave] at h
    exact ⟨hhave, h.extend hle hlt⟩

/-- The fields `openFrame` leaves alone, as one update of the frame fields. -/
theorem openFrame_eq (addr : UInt64) :
    r.openFrame addr =
      { r with
        frames := (r.openFrame addr).frames
        curFrameBase := (r.openFrame addr).curFrameBase
        curFrameCount := (r.openFrame addr).curFrameCount
        haveFrame := (r.openFrame addr).haveFrame } := by
  unfold openFrame
  split <;> rfl

/-- A row before the flush: the frame takes its address, the buffers its bytes. -/
def ScanResult.pushRow (r : ScanResult) (row : ScanRow) (masks : List UInt8) : ScanResult :=
  let r := r.openFrame row.address
  { r with
    offsetBuf := r.offsetBuf ++ [(row.address - r.curFrameBase).toUInt32]
    curFrameCount := r.curFrameCount + 1
    valueBuf := r.valueBuf ++ row.value
    firstValueBuf := if r.storeFirst then r.firstValueBuf ++ row.first else r.firstValueBuf
    valueSize := row.value.length
    count := r.count + 1
    allTypeBuf := r.allTypeBuf ++ masks }

theorem written_pushRow (h : Written all sf s rows r files) {row : ScanRow}
    (hrow : RowsOfSize all s [row]) :
    Written all sf s (rows ++ [row]) (r.pushRow row (if all then [row.mask] else [])) files := by
  obtain ⟨offs, hoffs, hframes⟩ := h.offsets
  obtain ⟨vals, hvals, hvalues⟩ := h.values
  obtain ⟨hhave, hnext⟩ := openFrame_framesFor hframes row.address
  have hsize : row.value.length = s := hrow.value row (List.mem_singleton.mpr rfl)
  rw [openFrame_eq] at hhave hnext
  rw [pushRow, openFrame_eq]
  refine ⟨h.finalized, h.writeError, h.writing, h.storeFirst, h.hasAllTypes, ?_, ?_, ?_, ?_, ?_, ?_,
    ?_, fun hb => absurd hb (by simp), h.frames, h.shards⟩
  · simp only [List.length_append, List.length_singleton, h.count]
  · simp [hsize]
  · refine ⟨offs, hoffs, ?_⟩
    rw [frameTable, if_pos hhave, ← List.append_assoc, List.map_append]
    exact hnext
  · exact ⟨vals, hvals, by
      simp only [List.flatMap_append, ← List.append_assoc, hvalues, List.flatMap_singleton]⟩
  · have hf := h.firstValues
    cases sf
    · exact hf
    · obtain ⟨done, hd, hrows⟩ : ∃ _, _ := hf
      refine ⟨done, hd, ?_⟩
      simp only [h.storeFirst, if_true, List.flatMap_append, ← List.append_assoc, hrows,
        List.flatMap_singleton]
  · have hm := h.masks
    cases all
    · exact hm
    · obtain ⟨ho, hl, done, hd, hrows⟩ : _ ∧ _ ∧ ∃ _, _ := hm
      refine ⟨ho, ?_, done, hd, ?_⟩
      · simp only [if_true, List.length_append, List.length_singleton, hl]
      · simp only [if_true, ← List.append_assoc, hrows, List.map_append, List.map_cons,
          List.map_nil]
  · intro ha
    simp [ha, h.allTypeBuf ha]

/-- The checks of `addResult` pass, once the mask of an all-type row is in its buffer. -/
theorem refuses_eq_false (h : Written all sf s rows r files) (hs : 0 < s) (h8 : all = true → s = 8)
    (masks : List UInt8) (hmasks : all = true → masks.length = 1) :
    ({ r with allTypeBuf := r.allTypeBuf ++ masks } : ScanResult).refuses s = false := by
  have hv := h.valueSize
  simp only [refuses, h.finalized, h.writeError, h.hasAllTypes, Bool.false_or,
    Bool.or_eq_false_iff, beq_eq_false_iff_ne, Bool.and_eq_false_iff, bne_eq_false_iff_eq]
  refine ⟨⟨by omega, ?_⟩, ?_⟩
  · rw [hv]
    split
    · exact Or.inl rfl
    · exact Or.inr rfl
  · cases all
    · exact Or.inl rfl
    · obtain ⟨-, hl, -⟩ : _ ∧ _ ∧ _ := h.masks
      refine Or.inr ⟨h8 rfl, ?_⟩
      rw [List.length_append, hl, hmasks rfl]

theorem openFrame_allTypeBuf (addr : UInt64) (masks : List UInt8) :
    ({ r with allTypeBuf := masks } : ScanResult).openFrame addr =
      { r.openFrame addr with allTypeBuf := masks } := by
  unfold openFrame
  split <;> rfl

@[simp] theorem openFrame_allTypeBuf_eq (addr : UInt64) :
    (r.openFrame addr).allTypeBuf = r.allTypeBuf := by
  unfold openFrame
  split <;> rfl

/-- Past its checks `addResult` pushes the row and, at 8192 rows, writes the buffers out. -/
theorem addResult_eq {row : ScanRow} {masks : List UInt8}
    (h : ({ r with allTypeBuf := r.allTypeBuf ++ masks } : ScanResult).refuses row.value.length
      = false) :
    ({ r with allTypeBuf := r.allTypeBuf ++ masks } : ScanResult).addResult files row.address
        row.value row.first row.value.length =
      if (r.pushRow row masks).offsetBuf.length ≥ 8192 then (r.pushRow row masks).flush files
      else (r.pushRow row masks, files) := by
  rw [addResult, if_neg (by rw [h]; decide), openFrame_allTypeBuf]
  simp only [pushRow, openFrame_allTypeBuf_eq]

theorem written_addRow (h : Written all sf s rows r files) {row : ScanRow}
    (hrow : RowsOfSize all s [row]) :
    Written all sf s (rows ++ [row]) (addRow all (r, files) row).1
      (addRow all (r, files) row).2 := by
  have hsize : row.value.length = s := hrow.value row (List.mem_singleton.mpr rfl)
  have hpush := written_pushRow h hrow
  have hflush := written_flush hpush
  set masks := if all = true then [row.mask] else [] with hmasks
  have hno : ({ r with allTypeBuf := r.allTypeBuf ++ masks } : ScanResult).refuses
      row.value.length = false := by
    rw [hsize]
    exact refuses_eq_false h hrow.pos (fun ha => (hrow.masks ha).1) masks
      (fun ha => by rw [hmasks, if_pos ha]; rfl)
  have hadd := @addResult_eq r files row masks hno
  have key : addRow all (r, files) row =
      ({ r with allTypeBuf := r.allTypeBuf ++ masks } : ScanResult).addResult files row.address
        row.value row.first row.value.length := by
    cases all
    · rw [hmasks]
      simp only [Bool.false_eq_true, if_false, List.append_nil]
      rfl
    · have hmask := (hrow.masks rfl).2 row (List.mem_singleton.mpr rfl)
      have hen : r.enableAllTypeCandidates files = (r, files) := by
        rw [enableAllTypeCandidates, if_pos h.hasAllTypes]
      rw [addRow, if_pos rfl, addAllTypeResult, hen]
      simp only [hmask, h.finalized, h.writeError, Bool.or_false, Bool.false_eq_true, if_false]
      rw [hsize, (hrow.masks rfl).1, hmasks, if_pos rfl]
  rw [key, hadd]
  split
  · exact hflush
  · exact hpush

theorem written_addRows {new : List ScanRow} (h : Written all sf s rows r files)
    (hnew : RowsOfSize all s new) :
    Written all sf s (rows ++ new) (new.foldl (addRow all) (r, files)).1
      (new.foldl (addRow all) (r, files)).2 := by
  induction new generalizing rows r files with
  | nil =>
    rw [List.append_nil]
    exact h
  | cons row new ih =>
    obtain ⟨hrow, hrest⟩ := hnew.of_cons
    have := ih (written_addRow h hrow) hrest
    rw [List.append_assoc] at this
    exact this

end Write

/-! ### The finished directory -/

/-- A directory that holds the rows: its streams, and the frame table as a reader decodes it. -/
structure StoredRows (all : Bool) (s : ℕ) (rows : List ScanRow) (frames : List AddressFrame)
    (files : ResultDir) : Prop where
  decodes : ∃ table offs, files.offsets = some (offs.flatMap offsetBytes) ∧
    FramesFor table offs (rows.map ScanRow.address) ∧ frames = placeFrames 0 table
  loads : loadFrames files = frames
  values : files.values = some (rows.flatMap ScanRow.value)
  firstValues : files.firstValues = some (rows.flatMap ScanRow.first) ∨
    files.firstValues = none ∧ ∀ row ∈ rows, row.first = row.value
  masks : files.allTypes = if all then some (rows.map ScanRow.mask) else none
  shards : files.shards = none
  sized : RowsOfSize all s rows

/-- The bytes of a run in `frames.bin`. -/
def frameBytes (f : UInt64 × ℕ) : List UInt8 := leBytes 8 f.1.toNat ++ leBytes 8 f.2

theorem frameBytes_length (f : UInt64 × ℕ) : (frameBytes f).length = 16 := by
  rw [frameBytes, List.length_append, leBytes_length, leBytes_length]

theorem frameBases_length (table : List (UInt64 × ℕ)) :
    (frameBases table).length = (table.map Prod.snd).sum := by
  induction table with
  | nil => rfl
  | cons f table ih =>
    rw [frameBases_cons, List.length_append, List.length_replicate, ih, List.map_cons,
      List.sum_cons]

/-- The decoder accepts a table whose runs all have matches and count to a `size_t`. -/
theorem decodeFrames_eq (table : List (UInt64 × ℕ)) (start : ℕ) (hpos : ∀ f ∈ table, 0 < f.2)
    (hsum : start + (table.map Prod.snd).sum ≤ sizeMax) :
    decodeFrames start (table.map frameBytes) = some (placeFrames start table) := by
  induction table generalizing start with
  | nil => rfl
  | cons f table ih =>
    obtain ⟨base, count⟩ := f
    rw [List.map_cons, List.sum_cons] at hsum
    have hc : 0 < count := hpos _ List.mem_cons_self
    have hbase : leNat ((frameBytes (base, count)).take 8) = base.toNat := by
      rw [frameBytes, List.take_left' (leBytes_length 8 _)]
      exact leNat_leBytes 8 _ base.toNat_lt
    have hcount : leNat ((frameBytes (base, count)).drop 8) = count := by
      rw [frameBytes, List.drop_left' (leBytes_length 8 _)]
      apply leNat_leBytes
      rw [sizeMax] at hsum
      omega
    have hrest := ih (start + count) (fun f hf => hpos f (List.mem_cons_of_mem _ hf))
      (by rw [Nat.add_assoc]; exact hsum)
    rw [List.map_cons, decodeFrames, hcount, hbase, hrest, if_neg]
    · simp only [Option.map_some, placeFrames, UInt64.ofNat_toNat]
    · simp only [Bool.or_eq_true, decide_eq_true_eq, not_or]
      omega

theorem loadFrames_eq {table : List (UInt64 × ℕ)} {files : ResultDir}
    (hfile : files.frames = if table.isEmpty then none else some (table.flatMap frameBytes))
    (hpos : ∀ f ∈ table, 0 < f.2) (hsum : (table.map Prod.snd).sum ≤ sizeMax) :
    loadFrames files = placeFrames 0 table := by
  rw [loadFrames, hfile]
  cases htable : table with
  | nil => rfl
  | cons f rest =>
    rw [← htable]
    have hlen : (table.flatMap frameBytes).length = table.length * 16 :=
      flatMap_length table fun f _ => frameBytes_length f
    have hne : table.isEmpty = false := by rw [htable]; rfl
    have hpos' : 0 < table.length := by rw [htable]; exact Nat.succ_pos _
    simp only [hne, Bool.false_eq_true, if_false, hlen]
    have hok : ¬ (decide (table.length * 16 < 16) || table.length * 16 % 16 != 0) = true := by
      simp only [Nat.mul_mod_left, bne_self_eq_false, Bool.or_false, decide_eq_true_eq]
      omega
    rw [if_neg hok, Nat.mul_div_cancel _ (by decide),
      records_flatMap table fun f _ => frameBytes_length f,
      decodeFrames_eq table 0 hpos (by omega)]
    rfl

section Finalize

variable {all sf : Bool} {s : ℕ} {rows : List ScanRow} {r : ScanResult} {files : ResultDir}

structure Finished (all sf : Bool) (s : ℕ) (rows : List ScanRow) (d : String) (r : ScanResult)
    (files : ResultDir) : Prop where
  count : r.count = rows.length
  valueSize : r.valueSize = if rows.isEmpty then 0 else s
  writeError : r.writeError = false
  hasAllTypes : r.hasAllTypes = all
  dir : r.dir = d
  stored : ∃ frames, r.shards = [⟨d, rows.length, 0, frames⟩] ∧
    StoredRows all s (rows.map (ScanRow.kept sf)) frames files

theorem RowsOfSize.kept (h : RowsOfSize all s rows) (sf : Bool) :
    RowsOfSize all s (rows.map (ScanRow.kept sf)) := by
  cases sf
  · refine ⟨h.pos, ?_, ?_, fun ha => ⟨(h.masks ha).1, ?_⟩⟩
    · intro x hx
      obtain ⟨row, hr, rfl⟩ := List.mem_map.mp hx
      exact h.value row hr
    · intro x hx
      obtain ⟨row, hr, rfl⟩ := List.mem_map.mp hx
      exact h.value row hr
    · intro x hx
      obtain ⟨row, hr, rfl⟩ := List.mem_map.mp hx
      exact (h.masks ha).2 row hr
  · rw [show rows.map (ScanRow.kept true) = rows from List.map_id rows]
    exact h

@[simp] theorem map_kept_address (sf : Bool) (rows : List ScanRow) :
    (rows.map (ScanRow.kept sf)).map ScanRow.address = rows.map ScanRow.address := by
  rw [List.map_map]
  apply List.map_congr_left
  intro row _
  cases sf <;> rfl

@[simp] theorem map_kept_mask (sf : Bool) (rows : List ScanRow) :
    (rows.map (ScanRow.kept sf)).map ScanRow.mask = rows.map ScanRow.mask := by
  rw [List.map_map]
  apply List.map_congr_left
  intro row _
  cases sf <;> rfl

@[simp] theorem flatMap_kept_value (sf : Bool) (rows : List ScanRow) :
    (rows.map (ScanRow.kept sf)).flatMap ScanRow.value = rows.flatMap ScanRow.value := by
  rw [List.flatMap_map]
  apply List.flatMap_congr
  intro row _
  cases sf <;> rfl

theorem flush_buffers (h : Written all sf s rows r files) :
    (r.flush files).1.offsetBuf = [] ∧ (r.flush files).1.valueBuf = [] ∧
      (r.flush files).1.firstValueBuf = [] ∧ (r.flush files).1.allTypeBuf = [] := by
  unfold flush
  split
  · rename_i hempty
    have hoff := List.isEmpty_iff.mp hempty
    obtain ⟨h1, h2⟩ := h.buffers hoff
    refine ⟨hoff, h1, h2, ?_⟩
    cases all
    · exact h.allTypeBuf rfl
    · obtain ⟨-, hl, -⟩ : _ ∧ _ ∧ _ := h.masks
      rw [hoff] at hl
      exact List.length_eq_zero_iff.mp hl
  · exact ⟨rfl, rfl, rfl, rfl⟩

theorem flush_keeps : (r.flush files).1.dir = r.dir ∧ (r.flush files).2.format = files.format := by
  unfold flush
  split <;> exact ⟨rfl, rfl⟩

theorem addResult_keeps (addr : UInt64) (value first : List UInt8) (n : ℕ) :
    (r.addResult files addr value first n).1.dir = r.dir ∧
      (r.addResult files addr value first n).2.format = files.format := by
  unfold addResult
  split
  · exact ⟨rfl, rfl⟩
  · rw [openFrame_eq]
    dsimp only
    split
    · exact flush_keeps
    · exact ⟨rfl, rfl⟩

theorem addRows_keeps (new : List ScanRow) (st : ScanResult × ResultDir) :
    (new.foldl (addRow false) st).1.dir = st.1.dir ∧
      (new.foldl (addRow false) st).2.format = st.2.format := by
  induction new generalizing st with
  | nil => exact ⟨rfl, rfl⟩
  | cons row new ih =>
    obtain ⟨h1, h2⟩ := ih (addRow false st row)
    obtain ⟨h3, h4⟩ := @addResult_keeps st.1 st.2 row.address row.value row.first row.value.length
    exact ⟨h1.trans h3, h2.trans h4⟩

theorem finalize_format : (r.finalize files).2.format = files.format := by
  rw [finalize]
  split
  · rfl
  · refine Eq.trans ?_ (@flush_keeps r files).2
    generalize r.flush files = p
    obtain ⟨r', files'⟩ := p
    dsimp only
    generalize (if r'.haveFrame then r'.frames ++ [(r'.curFrameBase, r'.curFrameCount)]
      else r'.frames) = table
    split <;> rfl

/-- Finalizing writes the frame table and makes the directory the one shard. -/
theorem finished_finalize (h : Written all sf s rows r files) (hrows : RowsOfSize all s rows)
    (hmax : rows.length ≤ sizeMax) :
    Finished all sf s rows r.dir (r.finalize files).1 (r.finalize files).2 := by
  have hf := written_flush h
  obtain ⟨hb1, hb2, hb3, hb4⟩ := flush_buffers h
  have hdir := (@flush_keeps r files).1
  rw [finalize, if_neg (by rw [h.finalized]; decide)]
  simp only
  generalize r.flush files = p at hf hb1 hb2 hb3 hb4 hdir
  obtain ⟨r', files'⟩ := p
  simp only at hf hb1 hb2 hb3 hb4 hdir ⊢
  obtain ⟨offs, hoffs, hframes⟩ := hf.offsets
  obtain ⟨vals, hvals, hvalues⟩ := hf.values
  rw [hb1, List.append_nil] at hframes
  rw [hb2, List.append_nil] at hvalues
  have htable : (if r'.haveFrame = true then r'.frames ++ [(r'.curFrameBase, r'.curFrameCount)]
      else r'.frames) = r'.frameTable := rfl
  rw [htable, hf.writing, Bool.true_and]
  set table := r'.frameTable with htab
  refine ⟨hf.count, hf.valueSize, hf.writeError, hf.hasAllTypes, hdir, placeFrames 0 table, ?_, ?_⟩
  · rw [hdir, hf.count]
  set files'' : ResultDir := if (!table.isEmpty) = true then
    { files' with frames := some (table.flatMap fun f => leBytes 8 f.1.toNat ++ leBytes 8 f.2) }
    else files' with hfiles
  have hkeep : files'' = { files' with
      frames := if table.isEmpty then none else some (table.flatMap frameBytes) } := by
    rw [hfiles]
    cases htable : table.isEmpty
    · rfl
    · rw [if_neg (by decide)]
      simp only [if_true]
      rw [← hf.frames]
  rw [hkeep]
  refine ⟨⟨table, offs, hoffs, ?_, rfl⟩, ?_, ?_, ?_, ?_, hf.shards, hrows.kept sf⟩
  · rw [map_kept_address]
    exact hframes
  · apply loadFrames_eq rfl hframes.counts_pos
    rw [← frameBases_length, hframes.bases_length, List.length_map]
    exact hmax
  · rw [flatMap_kept_value, ← hvalues]
    exact hvals
  · have hfirst := hf.firstValues
    cases sf
    · refine Or.inr ⟨hfirst, ?_⟩
      intro x hx
      obtain ⟨row, -, rfl⟩ := List.mem_map.mp hx
      rfl
    · obtain ⟨done, hd, hdone⟩ : ∃ _, _ := hfirst
      rw [hb3, List.append_nil] at hdone
      refine Or.inl ?_
      rw [show rows.map (ScanRow.kept true) = rows from List.map_id rows, ← hdone]
      exact hd
  · have hmasks := hf.masks
    rw [map_kept_mask]
    cases all
    · exact hmasks
    · obtain ⟨-, -, done, hd, hdone⟩ : _ ∧ _ ∧ ∃ _, _ := hmasks
      rw [hb4, List.append_nil] at hdone
      rw [if_pos rfl, ← hdone]
      exact hd

end Finalize

end CheatEngine
