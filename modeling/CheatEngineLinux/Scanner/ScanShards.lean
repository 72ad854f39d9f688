import CheatEngineLinux.Library.Slices
import CheatEngineLinux.Scanner.ScanResultStore

/-!
# The results of a scan's workers

Every worker of a scan writes a result of its own, beside the others in the scan's directory;
`assembleShardedResult` lists them in a manifest and opens it.

* `assembleShardedResult_opened` — **PROVED**: the merged result holds the workers' rows, one
  worker after the other.
-/

namespace CheatEngine

open RecordFile ScanResult

def Disk.put (disk : Disk) (dir : String) (files : ResultDir) : Disk :=
  fun d => if d = dir then files else disk d

/-- The disk after several directories were written. -/
def Disk.putAll (disk : Disk) (parts : List (ScanResult × ResultDir)) : Disk :=
  parts.foldl (fun disk part => disk.put part.1.dir part.2) disk

/-- The bytes of a record as the files of one directory have it. -/
def strideOf (files : ResultDir) (count : ℕ) : ℕ :=
  if count = 0 then 0
  else
    match files.values with
    | none => 0
    | some values =>
      if values.length = 0 || values.length % count != 0 then 0 else values.length / count

/-- The record size all shards with rows agree on, else 0. -/
def strideFrom (disk : Disk) : ℕ → List Shard → ℕ
  | stride, [] => stride
  | stride, s :: rest =>
    if s.count = 0 then strideFrom disk stride rest
    else
      let st := strideOf (disk s.dir) s.count
      if st = 0 || (stride != 0 && stride != st) then 0 else strideFrom disk st rest

def ScanResult.recordStride (r : ScanResult) (disk : Disk) : ℕ :=
  if r.shards.isEmpty then strideOf (disk r.dir) r.count else strideFrom disk 0 r.shards

/-- The manifest over the workers' results, opened. -/
def assembleShardedResult (disk : Disk) (mergedDir : String)
    (parts : List (ScanResult × ResultDir)) : ScanResult × Disk :=
  let disk := disk.putAll parts
  let files := { disk mergedDir with
    shards := some (manifestText (parts.map fun part => (part.1.dir, part.1.count))) }
  let disk := disk.put mergedDir files
  let merged := (openDir disk mergedDir true).1
  let (merged, files) :=
    match parts.head?.bind fun part => part.1.format with
    | some (order, width) => merged.setDataFormat files order width
    | none => (merged, files)
  let badFormat := match parts.head?.bind fun part => part.1.format with
    | some _ => parts.any fun part => part.1.format.isNone || part.1.format != merged.format
    | none => false
  let failed := badFormat || parts.any fun part => part.1.writeError
  ({ merged with writeError := merged.writeError || failed }, disk.put mergedDir files)

/-- The directories of a scan. -/
def resultsDir (resultDir : String) : String := resultDir ++ "/results"

def workerDir (resultDir : String) (t : ℕ) : String := resultDir ++ "/t" ++ toString t

/-! ### Reading an opened result again -/

section Read

variable {disk : Disk} {all : Bool} {s : ℕ} {parts : List (List ScanRow)} {r : ScanResult}

theorem ShardsHold.sized {cum : ℕ} {shards : List Shard} (h : ShardsHold disk all s cum shards parts)
    (hne : parts.flatten ≠ []) : RowsOfSize all s parts.flatten := by
  induction h with
  | nil => exact absurd rfl hne
  | @cons cum dir frames shards rows parts stored rest ih =>
    by_cases hrest : parts.flatten = []
    · rw [List.flatten_cons, hrest, List.append_nil]
      exact stored.sized
    · have hs := ih hrest
      have hmem : ∀ {p : ScanRow → Prop}, (∀ row ∈ rows, p row) → (∀ row ∈ parts.flatten, p row) →
          ∀ row ∈ (rows :: parts).flatten, p row := by
        intro p h1 h2 row hrow
        rw [List.flatten_cons, List.mem_append] at hrow
        exact hrow.elim (h1 row) (h2 row)
      exact ⟨hs.pos, hmem stored.sized.value hs.value, hmem stored.sized.first hs.first,
        fun ha => ⟨(hs.masks ha).1, hmem (stored.sized.masks ha).2 (hs.masks ha).2⟩⟩

theorem ShardsHold.reader_ok {cum : ℕ} {shards : List Shard}
    (h : ShardsHold disk all s cum shards parts) :
    (ShardReader.openFrom disk all cum (shards.map fun sh => (sh.dir, sh.count))).all
      (ShardReader.shardOk · all) = true := by
  induction h with
  | nil => rfl
  | @cons cum dir frames shards rows parts stored rest ih =>
    obtain ⟨table, offs, hoffs, -, -⟩ := stored.decodes
    have hcover : rows.length = 0 ∨ framesCover (loadFrames (disk dir)) rows.length = true := by
      by_cases hne : rows = []
      · exact Or.inl (by rw [hne]; rfl)
      · exact Or.inr (stored.framesCover hne)
    have hmasks : all = true → (ShardReader.openShard (disk dir) rows.length cum all).candidates.isSome
        = true := by
      rintro rfl
      have hm : (disk dir).allTypes = some (rows.map ScanRow.mask) := stored.masks
      simp [ShardReader.openShard, openAllTypeCandidates, hm]
    rw [List.map_cons, ShardReader.openFrom, List.all_cons, ih, Bool.and_true, ShardReader.shardOk]
    have hvals : (disk dir).values = some (rows.flatMap ScanRow.value) := stored.values
    simp only [Bool.and_eq_true, Bool.or_eq_true, Bool.not_eq_true', beq_iff_eq]
    refine ⟨⟨⟨?_, by simp [ShardReader.openShard, hoffs]⟩, by simp [ShardReader.openShard, hvals]⟩,
      hcover⟩
    cases hall : all
    · exact Or.inl rfl
    · rw [hall] at hmasks
      exact Or.inr (hmasks rfl)

theorem Opened.reader_ok (h : Opened disk all s parts r) :
    (ShardReader.create disk r.shardLayout all).ok = true := by
  rw [h.layout_eq]
  exact h.shards.reader_ok

/-- The size of the records, as the files have it. -/
theorem ShardsHold.strideFrom_eq {cum : ℕ} {shards : List Shard}
    (h : ShardsHold disk all s cum shards parts) (stride : ℕ) (hstride : stride = 0 ∨ stride = s) :
    strideFrom disk stride shards = if parts.flatten = [] then stride else s := by
  induction h generalizing stride with
  | nil => simp [strideFrom]
  | @cons cum dir frames shards rows parts stored rest ih =>
    rw [strideFrom]
    by_cases h0 : rows.length = 0
    · rw [if_pos h0, ih stride hstride, List.length_eq_zero_iff.mp h0]
      rfl
    · have hrows : rows ≠ [] := fun h => h0 (by rw [h]; rfl)
      have hpos := stored.sized.pos
      have hst : strideOf (disk dir) rows.length = s := by
        have hlen := flatMap_length rows stored.sized.value
        rw [strideOf, if_neg h0, stored.values]
        simp only [hlen, Nat.mul_mod_right, bne_self_eq_false, Bool.or_false, decide_eq_true_eq]
        rw [if_neg (Nat.mul_ne_zero h0 (by omega)),
          Nat.mul_div_cancel_left _ (Nat.pos_of_ne_zero h0)]
      have hagree : (decide (s = 0) || stride != 0 && stride != s) = false := by
        rcases hstride with rfl | rfl
        · simp
          omega
        · simp
          omega
      rw [if_neg h0]
      simp only [hst, hagree, Bool.false_eq_true, if_false]
      rw [ih s (Or.inr rfl), if_neg (show ¬ (rows :: parts).flatten = [] by simp [hrows])]
      split <;> rfl

theorem Opened.recordStride_eq (h : Opened disk all s parts r) (hne : parts.flatten ≠ []) :
    r.recordStride disk = s := by
  have hshards : r.shards ≠ [] := by
    intro hnil
    have := h.shards
    rw [hnil] at this
    cases this
    exact hne rfl
  rw [recordStride, if_neg (by simpa using hshards), h.shards.strideFrom_eq 0 (Or.inl rfl),
    if_neg hne]

end Read

/-! ### What writing keeps -/

section Keeps

variable {r : ScanResult} {files : ResultDir}

theorem flush_format : (r.flush files).1.format = r.format := by
  unfold flush
  split <;> rfl

theorem addResult_format (addr : UInt64) (value first : List UInt8) (n : ℕ) :
    (r.addResult files addr value first n).1.format = r.format := by
  unfold addResult
  split
  · rfl
  · rw [openFrame_eq]
    dsimp only
    split
    · exact flush_format
    · rfl

theorem enableAllTypeCandidates_keeps :
    (r.enableAllTypeCandidates files).1.dir = r.dir ∧
      (r.enableAllTypeCandidates files).1.format = r.format := by
  unfold enableAllTypeCandidates
  split
  · exact ⟨rfl, rfl⟩
  · split
    · exact ⟨rfl, rfl⟩
    · split <;> exact ⟨rfl, rfl⟩

theorem addAllTypeResult_keeps (addr : UInt64) (value first : List UInt8) (mask : UInt8) :
    (r.addAllTypeResult files addr value first mask).1.dir = r.dir ∧
      (r.addAllTypeResult files addr value first mask).1.format = r.format := by
  have henable := @enableAllTypeCandidates_keeps r files
  unfold addAllTypeResult
  generalize r.enableAllTypeCandidates files = p at henable
  obtain ⟨r', files'⟩ := p
  dsimp only at henable ⊢
  split
  · exact henable
  · rw [(addResult_keeps addr value first 8).1, addResult_format]
    exact henable

theorem addRows_same (all : Bool) (new : List ScanRow) (st : ScanResult × ResultDir) :
    (new.foldl (addRow all) st).1.dir = st.1.dir ∧
      (new.foldl (addRow all) st).1.format = st.1.format := by
  induction new generalizing st with
  | nil => exact ⟨rfl, rfl⟩
  | cons row new ih =>
    obtain ⟨h1, h2⟩ := ih (addRow all st row)
    rw [List.foldl_cons, h1, h2]
    cases all
    · exact ⟨(addResult_keeps _ _ _ _).1, addResult_format _ _ _ _⟩
    · exact addAllTypeResult_keeps _ _ _ _

theorem finalize_same : (r.finalize files).1.format = r.format := by
  rw [finalize]
  split
  · rfl
  · refine Eq.trans ?_ (@flush_format r files)
    generalize r.flush files = p
    obtain ⟨r', files'⟩ := p
    rfl

theorem written_setDataFormat {all sf : Bool} {s : ℕ} {rows : List ScanRow}
    (h : Written all sf s rows r files) (order : ByteOrder) {width : ℕ}
    (hw : width = 0 ∨ width = 4 ∨ width = 8) :
    Written all sf s rows (r.setDataFormat files order width).1
        (r.setDataFormat files order width).2 ∧
      (r.setDataFormat files order width).1.format = some (order, width) ∧
      (r.setDataFormat files order width).1.dir = r.dir := by
  have hok : (width != 0 && width != 4 && width != 8) = false := by
    rcases hw with rfl | rfl | rfl <;> rfl
  rw [setDataFormat, hok]
  exact ⟨⟨h.finalized, h.writeError, h.writing, h.storeFirst, h.hasAllTypes, h.count, h.valueSize,
    h.offsets, h.values, h.firstValues, h.masks, h.allTypeBuf, h.buffers, h.frames, h.shards⟩,
    rfl, rfl⟩

end Keeps

/-! ### The merged result -/

section Merge

variable {disk : Disk} {f : ℕ → ScanResult × ResultDir} {dirOf : ℕ → String} {ts : List ℕ}

theorem putAll_other (hdir : ∀ t ∈ ts, (f t).1.dir = dirOf t) {d : String}
    (hd : ∀ t ∈ ts, dirOf t ≠ d) : disk.putAll (ts.map f) d = disk d := by
  induction ts generalizing disk with
  | nil => rfl
  | cons u ts ih =>
    have hne : d ≠ (f u).1.dir := by
      rw [hdir u List.mem_cons_self]
      exact fun h => hd u List.mem_cons_self h.symm
    rw [List.map_cons, Disk.putAll, List.foldl_cons]
    refine Eq.trans (ih (fun t ht => hdir t (List.mem_cons_of_mem _ ht))
      (fun t ht => hd t (List.mem_cons_of_mem _ ht))) ?_
    rw [Disk.put, if_neg hne]

theorem putAll_mem (hdir : ∀ t ∈ ts, (f t).1.dir = dirOf t)
    (hinj : ∀ t ∈ ts, ∀ u ∈ ts, dirOf t = dirOf u → t = u) {t : ℕ} (ht : t ∈ ts) :
    disk.putAll (ts.map f) (dirOf t) = (f t).2 := by
  induction ts generalizing disk with
  | nil => cases ht
  | cons u ts ih =>
    have hdir' := fun t ht => hdir t (List.mem_cons_of_mem u ht)
    rw [List.map_cons, Disk.putAll, List.foldl_cons]
    by_cases hmem : t ∈ ts
    · exact ih hdir' (fun a ha b hb => hinj a (List.mem_cons_of_mem _ ha) b
        (List.mem_cons_of_mem _ hb)) hmem
    · have htu : t = u := (List.mem_cons.mp ht).resolve_right hmem
      refine Eq.trans (putAll_other hdir' ?_) ?_
      · intro a ha hau
        have := hinj a (List.mem_cons_of_mem _ ha) t ht hau
        exact hmem (this ▸ ha)
      · rw [Disk.put, hdir u List.mem_cons_self, htu, if_pos rfl]

structure WorkerPart (all sf : Bool) (s : ℕ) (format : ByteOrder × ℕ) (dir : String)
    (rows : List ScanRow) (part : ScanResult × ResultDir) : Prop where
  finished : Finished all sf s rows dir part.1 part.2
  format : part.1.format = some format

/-- The directories of a scan's workers and of its merged result. -/
structure ScanDirs (disk : Disk) (dirOf : ℕ → String) (ts : List ℕ) (mergedDir : String) : Prop where
  named : ∀ t ∈ ts, dirOf t ≠ ""
  oneLine : ∀ t ∈ ts, '\n' ∉ (dirOf t).toList
  injective : ∀ t ∈ ts, ∀ u ∈ ts, dirOf t = dirOf u → t = u
  merged : ∀ t ∈ ts, dirOf t ≠ mergedDir
  empty : disk mergedDir = {}

theorem workerDir_toList (resultDir : String) (t : ℕ) :
    (workerDir resultDir t).toList = resultDir.toList ++ '/' :: 't' :: Nat.toDigits 10 t := by
  have hdigits : (toString t).toList = Nat.toDigits 10 t := by
    rw [Nat.toString_eq_ofList_toDigits, String.toList_ofList]
  rw [workerDir, String.toList_append, String.toList_append, hdigits, List.append_assoc]
  rfl

theorem resultsDir_toList (resultDir : String) :
    (resultsDir resultDir).toList = resultDir.toList ++ "/results".toList := by
  rw [resultsDir, String.toList_append]

structure NewScanDir (disk : Disk) (resultDir : String) : Prop where
  oneLine : '\n' ∉ resultDir.toList
  results : disk (resultsDir resultDir) = {}
  workers : ∀ t, disk (workerDir resultDir t) = {}

theorem NewScanDir.scanDirs {disk : Disk} {resultDir : String} (h : NewScanDir disk resultDir)
    (ts : List ℕ) : ScanDirs disk (workerDir resultDir) ts (resultsDir resultDir) := by
  refine ⟨?_, ?_, ?_, ?_, h.results⟩
  · intro t _ hnil
    have := workerDir_toList resultDir t
    rw [hnil] at this
    simp at this
  · intro t _ hmem
    rw [workerDir_toList, List.mem_append] at hmem
    rcases hmem with hmem | hmem
    · exact h.oneLine hmem
    · have hdig := digits_no_char t '\n' (by decide)
      rw [Nat.toString_eq_ofList_toDigits, String.toList_ofList] at hdig
      simp [hdig] at hmem
  · intro t _ u _ heq
    have hl := congrArg String.toList heq
    rw [workerDir_toList, workerDir_toList, List.append_cancel_left_eq] at hl
    have hd : Nat.toDigits 10 t = Nat.toDigits 10 u := by simpa using hl
    rw [← @Nat.ofDigitChars_ten_toDigits t, hd, Nat.ofDigitChars_ten_toDigits]
  · intro t _ heq
    have hl := congrArg String.toList heq
    rw [workerDir_toList, resultsDir_toList, List.append_cancel_left_eq] at hl
    simp at hl

theorem ShardsHold.put {all : Bool} {s cum : ℕ} {shards : List Shard} {parts : List (List ScanRow)}
    (h : ShardsHold disk all s cum shards parts) {dir : String} {files : ResultDir}
    (hdir : (disk dir).shards.isSome = true) :
    ShardsHold (disk.put dir files) all s cum shards parts := by
  induction h with
  | nil cum => exact ShardsHold.nil cum
  | @cons cum d frames shards rows parts stored rest ih =>
    have hne : d ≠ dir := by
      rintro rfl
      rw [stored.shards] at hdir
      cases hdir
    refine ShardsHold.cons ?_ ih
    rw [Disk.put, if_neg hne]
    exact stored

theorem assembleShardedResult_opened {all sf : Bool} {s : ℕ} {format : ByteOrder × ℕ}
    {g : ℕ → List ScanRow} {mergedDir : String} (hdirs : ScanDirs disk dirOf ts mergedDir)
    (hparts : ∀ t ∈ ts, WorkerPart all sf s format (dirOf t) (g t) (f t))
    (hne : ts ≠ []) (hw : format.2 = 0 ∨ format.2 = 4 ∨ format.2 = 8) (hs : s ≤ sizeMax)
    (hmax : (ts.flatMap g).length ≤ sizeMax) :
    Opened (assembleShardedResult disk mergedDir (ts.map f)).2 all s
      (ts.map fun t => (g t).map (ScanRow.kept sf))
      (assembleShardedResult disk mergedDir (ts.map f)).1 := by
  have hdir : ∀ t ∈ ts, (f t).1.dir = dirOf t := fun t ht => (hparts t ht).finished.dir
  have hcount : ∀ t ∈ ts, (f t).1.count = (g t).length := fun t ht => (hparts t ht).finished.count
  set ps : List (String × List ScanRow) := ts.map fun t => (dirOf t, (g t).map (ScanRow.kept sf))
    with hps
  have htext : manifestText ((ts.map f).map fun part => (part.1.dir, part.1.count))
      = manifestText (ps.map fun p => (p.1, p.2.length)) := by
    congr 1
    rw [hps, List.map_map, List.map_map]
    refine List.map_congr_left fun t ht => ?_
    simp only [Function.comp_apply, hdir t ht, hcount t ht, List.length_map]
  have hhead : ((ts.map f).head?.bind fun part => part.1.format) = some format := by
    cases ts with
    | nil => exact absurd rfl hne
    | cons t ts => exact (hparts t List.mem_cons_self).format
  have hfailed : (ts.map f).any (fun part => part.1.writeError) = false := by
    rw [List.any_eq_false]
    intro part hpart
    obtain ⟨t, ht, rfl⟩ := List.mem_map.mp hpart
    rw [(hparts t ht).finished.writeError]
    decide
  have hbad : (ts.map f).any (fun part => part.1.format.isNone || part.1.format != some format)
      = false := by
    rw [List.any_eq_false]
    intro part hpart
    obtain ⟨t, ht, rfl⟩ := List.mem_map.mp hpart
    rw [(hparts t ht).format]
    simp
  have hwidth : (format.2 != 0 && format.2 != 4 && format.2 != 8) = false := by
    rcases hw with h | h | h <;> rw [h] <;> rfl
  set disk₁ := disk.putAll (ts.map f) with hdisk₁
  have hmerged : disk₁ mergedDir = {} := by
    rw [hdisk₁, putAll_other hdir hdirs.merged, hdirs.empty]
  set text := manifestText (ps.map fun p => (p.1, p.2.length))
  set disk₂ := disk₁.put mergedDir { shards := some text } with hdisk₂
  have hfiles : disk₂ mergedDir = { shards := some text } := by rw [hdisk₂, Disk.put, if_pos rfl]
  have hopen : Opened disk₂ all s (ps.map Prod.snd) (loadShards disk₂ mergedDir) := by
    refine loadShards_manifest ?_ (by rw [hfiles]) hs ?_ ?_
    · intro p hp
      obtain ⟨t, ht, rfl⟩ := List.mem_map.mp hp
      obtain ⟨frames, -, hstored⟩ := (hparts t ht).finished.stored
      refine ⟨hdirs.named t ht, hdirs.oneLine t ht, frames, ?_⟩
      rw [hdisk₂, Disk.put, if_neg (hdirs.merged t ht), hdisk₁,
        putAll_mem hdir hdirs.injective ht]
      exact hstored
    · rw [hps, List.map_map, List.length_flatten, List.map_map]
      rw [List.length_flatMap] at hmax
      simpa only [Function.comp_def, List.length_map] using hmax
    · intro hnil
      rw [hps, List.map_eq_nil_iff] at hnil
      exact absurd hnil hne
  have hread := openDir_eq true (Or.inl (by rw [hfiles]; rfl)) (show (disk₂ mergedDir).format = none
    by rw [hfiles])
  have hparts' : (ps.map Prod.snd) = ts.map fun t => (g t).map (ScanRow.kept sf) := by
    rw [hps, List.map_map]
    rfl
  rw [← hparts']
  simp only [assembleShardedResult, htext, hhead, ← hdisk₁, hmerged, ← hdisk₂, hread,
    setDataFormat, hwidth, Bool.false_eq_true, if_false, hbad, hfailed, Bool.or_false]
  exact ⟨hopen.count, hopen.valueSize, hopen.writeError, hopen.hasAllTypes,
    hopen.shards.put (by rw [hfiles]; rfl)⟩

end Merge

end CheatEngine
