import CheatEngineLinux.Scanner.ScanResultRead

/-!
# A scan result is a faithful store

* `addShard_stored` — **PROVED**: opening accepts a directory that holds rows, with their
  count, size and frame table;
* `loadShards_manifest` — **PROVED**: a manifest opens as the concatenation of its directories;
* `scanResult_faithful` — **PROVED**: what is added to results is what every reader of them,
  of their reopened directories and of a manifest over them gives back.
-/

namespace CheatEngine

open RecordFile ScanResult

/-! ### Opening a directory -/

section Load

variable {disk : Disk} {all : Bool} {s : ℕ} {rows : List ScanRow} {frames : List AddressFrame}

theorem framesCover_placeFrames (table : List (UInt64 × ℕ)) (start : ℕ) (hne : table ≠ []) :
    framesCover (placeFrames start table) (start + (table.map Prod.snd).sum) = true := by
  induction table generalizing start with
  | nil => exact absurd rfl hne
  | cons f table ih =>
    obtain ⟨base, count⟩ := f
    rw [placeFrames, List.map_cons, List.sum_cons]
    cases table with
    | nil =>
      simp [framesCover, placeFrames]
    | cons g table =>
      have := ih (start + count) (List.cons_ne_nil _ _)
      rw [Nat.add_assoc] at this
      rw [framesCover, List.getLast?_cons_of_ne_nil]
      · exact this
      · rw [placeFrames]
        exact List.cons_ne_nil _ _

theorem StoredRows.framesCover {files : ResultDir} (h : StoredRows all s rows frames files)
    (hne : rows ≠ []) : framesCover (loadFrames files) rows.length = true := by
  obtain ⟨table, offs, -, hframes, hplace⟩ := h.decodes
  have hsum := hframes.bases_length
  rw [frameBases_length, List.length_map] at hsum
  have htable : table ≠ [] := by
    rintro rfl
    exact hne (List.length_eq_zero_iff.mp hsum.symm)
  have := framesCover_placeFrames table 0 htable
  rw [Nat.zero_add, hsum] at this
  rw [h.loads, hplace]
  exact this

/-- A loading in progress over directories of one kind and one record size. -/
structure LoadingOf (disk : Disk) (all : Bool) (s : ℕ) (parts : List (List ScanRow))
    (l : Loading) : Prop where
  count : l.count = parts.flatten.length
  valueSize : l.valueSize = if parts.flatten.isEmpty then 0 else s
  format : l.candidateFormat = if parts.isEmpty then none else some all
  shards : ShardsHold disk all s 0 l.shards parts

theorem ShardsHold.concat {cum : ℕ} {shards : List Shard} {parts : List (List ScanRow)}
    (h : ShardsHold disk all s cum shards parts) {dir : String}
    (hst : StoredRows all s rows frames (disk dir)) :
    ShardsHold disk all s cum
      (shards ++ [⟨dir, rows.length, cum + parts.flatten.length, frames⟩]) (parts ++ [rows]) := by
  induction h with
  | nil cum => exact ShardsHold.cons hst (ShardsHold.nil _)
  | @cons cum dir' frames' shards rows' parts stored rest ih =>
    have := ShardsHold.cons stored ih
    rw [Nat.add_assoc, ← List.length_append, ← List.flatten_cons] at this
    exact this

theorem addShard_stored {parts : List (List ScanRow)} {l : Loading} {dir : String}
    (hl : LoadingOf disk all s parts l) (h : StoredRows all s rows frames (disk dir))
    (hmax : parts.flatten.length + rows.length ≤ sizeMax) (hs : s ≤ sizeMax)
    (expected : Option ℕ) (hexp : expected.any (· != rows.length) = false) :
    (l.addShard disk dir expected).1 = true ∧
      LoadingOf disk all s (parts ++ [rows]) (l.addShard disk dir expected).2 := by
  obtain ⟨table, offs, hoffs, hframes, hplace⟩ := h.decodes
  have hol : offs.length = rows.length := by rw [hframes.offs_length, List.length_map]
  have hbytes : (offs.flatMap offsetBytes).length = rows.length * 4 := by
    rw [flatMap_length offs fun o _ => offsetBytes_length o, hol]
  have hvb : (rows.flatMap ScanRow.value).length = rows.length * s :=
    flatMap_length rows h.sized.value
  have hpos := h.sized.pos
  have hcount := hl.count
  have hvs := hl.valueSize
  -- the checks, in the order they are made
  have hwhole : (rows.length * 4 % 4 != 0 || decide (rows.length > sizeMax)) = false := by
    simp only [Nat.mul_mod_left, bne_self_eq_false, Bool.false_or, decide_eq_false_iff_not]
    omega
  have hfits : (expected.any (· != rows.length) || decide (rows.length > sizeMax - l.count))
      = false := by
    rw [hexp, Bool.false_or, decide_eq_false_iff_not, hcount]
    omega
  have hcover : (rows.length != 0 && !CheatEngine.framesCover (loadFrames (disk dir)) rows.length)
      = false := by
    by_cases hne : rows = []
    · simp [hne]
    · rw [h.framesCover hne]
      simp
  have hvalues : (if rows.length = 0 then rows.length * s != 0
      else rows.length * s == 0 || rows.length * s % rows.length != 0
        || decide (rows.length * s / rows.length > sizeMax)) = false := by
    split
    · rename_i h0
      simp [h0]
    · rename_i h0
      rw [Nat.mul_mod_right, Nat.mul_div_cancel_left _ (Nat.pos_of_ne_zero h0)]
      simp only [bne_self_eq_false, Bool.or_false, Bool.or_eq_false_iff, beq_eq_false_iff_ne,
        decide_eq_false_iff_not]
      exact ⟨Nat.mul_ne_zero h0 (by omega), by omega⟩
  have hstride : (if rows.length = 0 then 0 else rows.length * s / rows.length)
      = if rows.length = 0 then 0 else s := by
    split
    · rfl
    · rename_i h0
      exact Nat.mul_div_cancel_left _ (Nat.pos_of_ne_zero h0)
  have hcand : openAllTypeCandidates (disk dir) rows.length true
      = if all then .opened (rows.map ScanRow.mask) else .missing := by
    rw [openAllTypeCandidates, h.masks]
    cases all
    · rfl
    · have hgood : (rows.map ScanRow.mask).any badMask = false := by
        rw [List.any_eq_false]
        intro m hm
        obtain ⟨row, hrow, rfl⟩ := List.mem_map.mp hm
        rw [(h.sized.masks rfl).2 row hrow]
        decide
      simp [hgood]
  have hvalid : ¬ openAllTypeCandidates (disk dir) rows.length true = .invalid := by
    rw [hcand]
    cases all <;> simp
  have hall : (openAllTypeCandidates (disk dir) rows.length true != .missing) = all := by
    rw [hcand]
    cases all
    · rfl
    · rfl
  have hkind : (all && rows.length != 0 && (if rows.length = 0 then 0 else s) != 8
      || l.candidateFormat.any (· != all)) = false := by
    rw [hl.format]
    have hany : (if parts.isEmpty then none else some all).any (· != all) = false := by
      cases parts.isEmpty <;> simp
    rw [hany, Bool.or_false]
    cases all
    · rfl
    · rw [(h.sized.masks rfl).1]
      by_cases h0 : rows.length = 0 <;> simp [h0]
  have hsame : ((if rows.length = 0 then 0 else s) != 0 && l.valueSize != 0
      && (if rows.length = 0 then 0 else s) != l.valueSize) = false := by
    rw [hvs]
    by_cases h0 : rows.length = 0
    · simp [h0]
    · cases parts.flatten.isEmpty <;> simp [h0]
  have hfirst : (disk dir).firstValues.any (·.length != rows.length * s) = false := by
    rcases h.firstValues with hf | ⟨hf, -⟩
    · rw [hf, Option.any_some, flatMap_length rows h.sized.first, bne_self_eq_false]
    · rw [hf]
      rfl
  have hadd : l.addShard disk dir expected = (true,
      { candidateFormat := some all
        valueSize := if (if rows.length = 0 then 0 else s) = 0 then l.valueSize
          else if rows.length = 0 then 0 else s
        shards := l.shards ++ [⟨dir, rows.length, l.count, loadFrames (disk dir)⟩]
        count := l.count + rows.length }) := by
    simp only [Loading.addShard, hoffs, h.values, hbytes, hvb,
      Nat.mul_div_cancel _ (show 0 < 4 by decide), hwhole, hfits, hcover, hvalues, hstride, hall,
      hkind, hsame, hfirst, if_neg hvalid, Bool.false_eq_true, if_false]
  rw [hadd]
  refine ⟨rfl, ?_, ?_, ?_, ?_⟩
  · rw [List.flatten_concat, List.length_append, ← hcount]
  · rw [List.flatten_concat]
    simp only [hvs]
    cases rows with
    | nil => simp
    | cons row rest => simp; omega
  · simp
  · simp only
    rw [h.loads, hcount, ← Nat.zero_add parts.flatten.length]
    exact hl.shards.concat h

theorem loadShards_dir {dir : String} (h : StoredRows all s rows frames (disk dir))
    (hmax : rows.length ≤ sizeMax) (hs : s ≤ sizeMax) :
    Opened disk all s [rows] (loadShards disk dir) := by
  obtain ⟨table, offs, hoffs, -⟩ := h.decodes
  have hstart : LoadingOf disk all s [] {} := ⟨rfl, rfl, rfl, ShardsHold.nil 0⟩
  obtain ⟨hok, hload⟩ := addShard_stored hstart h (by simpa using hmax) hs none rfl
  have hpart : ([] ++ [rows] : List (List ScanRow)) = [rows] := rfl
  rw [hpart] at hload
  simp only [loadShards, h.shards, hoffs, Option.isSome_some, if_true, hok]
  exact ⟨hload.count, hload.valueSize, rfl, by rw [hload.format]; rfl, hload.shards⟩

end Load

/-! ### Manifests -/

/-- `std::to_string` is read back by `std::from_chars`. -/
theorem fromChars_toString {n : ℕ} (h : n ≤ sizeMax) : fromChars (toString n).toList = some n := by
  have hd : (toString n).toList = Nat.toDigits 10 n := by
    rw [Nat.toString_eq_ofList_toDigits, String.toList_ofList]
  have hall : (Nat.toDigits 10 n).all Char.isDigit = true := by
    rw [List.all_eq_true]
    exact fun c hc => Nat.isDigit_of_mem_toDigits (by decide) (by decide) hc
  have hne : (Nat.toDigits 10 n).isEmpty = false := by
    rw [List.isEmpty_eq_false_iff]
    exact Nat.toDigits_ne_nil
  rw [fromChars, hd, hall, hne, Nat.ofDigitChars_ten_toDigits]
  simp only [Bool.not_true, Bool.or_self, Bool.false_eq_true, if_false]
  exact if_neg (by omega)

/-- The line of a directory, without its end. -/
def manifestLine (p : String × ℕ) : List Char := (toString p.2).toList ++ ' ' :: p.1.toList

theorem digits_no_char (n : ℕ) (c : Char) (hc : c.isDigit = false) :
    c ∉ (toString n).toList := by
  rw [Nat.toString_eq_ofList_toDigits, String.toList_ofList]
  intro h
  rw [Nat.isDigit_of_mem_toDigits (by decide) (by decide) h] at hc
  cases hc

theorem parseManifestLine_eq {p : String × ℕ} (hn : p.2 ≤ sizeMax) (hd : p.1 ≠ "") :
    parseManifestLine (manifestLine p) = some (p.2, p.1) := by
  have hdig : ∀ c ∈ (toString p.2).toList, (c != ' ') = true := by
    intro c hc
    rw [bne_iff_ne]
    rintro rfl
    exact digits_no_char p.2 ' ' (by decide) hc
  have hdrop : (manifestLine p).dropWhile (· != ' ') = ' ' :: p.1.toList := by
    rw [manifestLine, List.dropWhile_append_of_pos hdig]
    rfl
  have htake : (manifestLine p).takeWhile (· != ' ') = (toString p.2).toList := by
    rw [manifestLine, List.takeWhile_append_of_pos hdig]
    simp
  have hne : p.1.toList.isEmpty = false := by
    rw [List.isEmpty_eq_false_iff]
    intro h
    exact hd (String.toList_eq_nil_iff.mp h)
  rw [parseManifestLine, hdrop, htake]
  simp only [hne, Bool.false_eq_true, if_false, fromChars_toString hn, Option.map_some,
    String.ofList_toList]

theorem manifest_lines (ps : List (String × ℕ)) (h : ∀ p ∈ ps, '\n' ∉ p.1.toList) :
    (manifestText ps).toList.splitOn '\n' = ps.map manifestLine ++ [[]] := by
  rw [manifestText, String.toList_ofList]
  induction ps with
  | nil => rfl
  | cons p ps ih =>
    have hline : ∀ c ∈ manifestLine p, (c == '\n') = false := by
      intro c hc
      rw [beq_eq_false_iff_ne]
      rintro rfl
      rcases List.mem_append.mp hc with hc | hc
      · exact digits_no_char p.2 '\n' (by decide) hc
      · rcases List.mem_cons.mp hc with hc | hc
        · exact absurd hc (by decide)
        · exact h p List.mem_cons_self hc
    have hsplit : (p :: ps).flatMap (fun p => (toString p.2).toList ++ ' ' :: p.1.toList ++ ['\n'])
        = manifestLine p ++ '\n' :: ps.flatMap
          (fun p => (toString p.2).toList ++ ' ' :: p.1.toList ++ ['\n']) := by
      simp [manifestLine]
    have hrest := ih fun q hq => h q (List.mem_cons_of_mem _ hq)
    rw [hsplit, List.splitOn_eq_splitOnP,
      List.splitOnP_append_cons_of_forall_mem hline _ (by decide), ← List.splitOn_eq_splitOnP, hrest]
    rfl

section Manifest

variable {disk : Disk} {all : Bool} {s : ℕ}

/-- A directory of a manifest with the rows it holds. -/
structure Listed (disk : Disk) (all : Bool) (s : ℕ) (p : String × List ScanRow) : Prop where
  named : p.1 ≠ ""
  oneLine : '\n' ∉ p.1.toList
  stored : ∃ frames, StoredRows all s p.2 frames (disk p.1)

theorem addLines_listed (ps : List (String × List ScanRow)) (hps : ∀ p ∈ ps, Listed disk all s p)
    (hs : s ≤ sizeMax) {parts : List (List ScanRow)} {l : Loading}
    (hl : LoadingOf disk all s parts l)
    (hmax : (parts ++ ps.map Prod.snd).flatten.length ≤ sizeMax) :
    (Loading.addLines disk l ((ps.map fun p => manifestLine (p.1, p.2.length)) ++ [[]])).1 = true ∧
      LoadingOf disk all s (parts ++ ps.map Prod.snd)
        (Loading.addLines disk l
          ((ps.map fun p => manifestLine (p.1, p.2.length)) ++ [[]])).2 := by
  induction ps generalizing parts l with
  | nil =>
    rw [List.map_nil, List.map_nil, List.append_nil]
    exact ⟨rfl, hl⟩
  | cons p ps ih =>
    have hp := hps p List.mem_cons_self
    obtain ⟨frames, hst⟩ := hp.stored
    have hlen : parts.flatten.length + p.2.length + (ps.map Prod.snd).flatten.length
        ≤ sizeMax := by
      rw [List.map_cons, List.flatten_append, List.flatten_cons] at hmax
      simp only [List.length_append] at hmax
      omega
    obtain ⟨hok, hload⟩ := addShard_stored hl hst (by omega) hs (some p.2.length) (by simp)
    have hrest := ih (fun q hq => hps q (List.mem_cons_of_mem _ hq)) hload (by
      rw [List.flatten_append, List.flatten_concat]
      simp only [List.length_append]
      exact hlen)
    have hparse : parseManifestLine (manifestLine (p.1, p.2.length)) = some (p.2.length, p.1) :=
      parseManifestLine_eq (by simp only; omega) hp.named
    have hne : (manifestLine (p.1, p.2.length)).isEmpty = false := by
      rw [List.isEmpty_eq_false_iff, manifestLine]
      simp
    have hstep : Loading.addLines disk l
        (((p :: ps).map fun p => manifestLine (p.1, p.2.length)) ++ [[]])
        = Loading.addLines disk (l.addShard disk p.1 (some p.2.length)).2
          ((ps.map fun p => manifestLine (p.1, p.2.length)) ++ [[]]) := by
      rw [List.map_cons, List.cons_append, Loading.addLines, hne]
      simp only [Bool.false_eq_true, if_false, hparse]
      rw [← Prod.mk.eta (p := l.addShard disk p.1 (some p.2.length)), hok]
    have hparts : parts ++ (p :: ps).map Prod.snd = parts ++ [p.2] ++ ps.map Prod.snd := by simp
    rw [hstep, hparts]
    exact hrest

theorem loadShards_manifest {dir : String} {ps : List (String × List ScanRow)}
    (hps : ∀ p ∈ ps, Listed disk all s p)
    (htext : (disk dir).shards = some (manifestText (ps.map fun p => (p.1, p.2.length))))
    (hs : s ≤ sizeMax) (hmax : (ps.map Prod.snd).flatten.length ≤ sizeMax)
    (hkind : ps = [] → all = false) :
    Opened disk all s (ps.map Prod.snd) (loadShards disk dir) := by
  have hstart : LoadingOf disk all s [] {} := ⟨rfl, rfl, rfl, ShardsHold.nil 0⟩
  have hlines := manifest_lines (ps.map fun p => (p.1, p.2.length)) (by
    intro q hq
    obtain ⟨p, hp, rfl⟩ := List.mem_map.mp hq
    exact (hps p hp).oneLine)
  rw [List.map_map] at hlines
  obtain ⟨hok, hload⟩ := addLines_listed ps hps hs hstart (by simpa using hmax)
  rw [List.nil_append] at hload
  have hlines' : (manifestText (ps.map fun p => (p.1, p.2.length))).toList.splitOn '\n'
      = (ps.map fun p => manifestLine (p.1, p.2.length)) ++ [[]] := hlines
  simp only [loadShards, htext, hlines', hok, if_true]
  refine ⟨hload.count, hload.valueSize, rfl, ?_, hload.shards⟩
  rw [hload.format]
  cases ps with
  | nil => exact (hkind rfl).symm
  | cons => rfl

end Manifest

/-! ### The whole store -/

/-- One writer: its directory, whether it keeps first values, and the calls it makes. -/
structure StoreRun where
  dir : String
  storeFirst : Bool
  rows : List ScanRow
  deriving Repr, DecidableEq

/-- A new result after the calls and `finalize`, with what is then on disk. -/
def StoreRun.finished (run : StoreRun) : ScanResult × ResultDir :=
  let start := openDir (fun _ => {}) run.dir run.storeFirst
  let st := run.rows.foldl (addRow false) start
  st.1.finalize st.2

def StoreRun.kept (run : StoreRun) : List ScanRow := run.rows.map (ScanRow.kept run.storeFirst)

/-- Every reader of a result gives `rows`. -/
structure Serves (disk : Disk) (s : ℕ) (rows : List ScanRow) (r : ScanResult) : Prop where
  count : r.count = rows.length
  writeError : r.writeError = false
  address : ∀ i row, rows[i]? = some row → r.address disk i = row.address
  value : ∀ i row, rows[i]? = some row → r.value disk i s = row.value
  firstValue : ∀ i row, rows[i]? = some row → r.firstValue disk i s = row.first
  forEach : batchRows * s ≤ 2 ^ 63 - 1 →
    r.forEach disk s = .ok (rows.map fun row => (row.address, row.value))
  read : ∀ i n, i + n ≤ rows.length →
    (ShardReader.create disk r.shardLayout false).read i n s false =
      some (batchOf ((rows.drop i).take n) false)

theorem Opened.serves {disk : Disk} {s : ℕ} {parts : List (List ScanRow)} {r : ScanResult}
    (h : Opened disk false s parts r) : Serves disk s parts.flatten r where
  count := h.count
  writeError := h.writeError
  address _ _ hi := h.address_eq hi
  value _ _ hi := h.value_eq hi
  firstValue _ _ hi := h.firstValue_eq hi
  forEach hs := h.forEach_eq hs
  read _ _ hin := h.read_eq hin

theorem StoreRun.finished_spec (run : StoreRun) {s : ℕ} (hrows : RowsOfSize false s run.rows)
    (hmax : run.rows.length ≤ sizeMax) :
    Finished false run.storeFirst s run.rows run.dir run.finished.1 run.finished.2 := by
  have hstart := written_create run.dir run.storeFirst s
  have hw := written_addRows hstart hrows
  rw [List.nil_append] at hw
  have hfin := finished_finalize hw hrows hmax
  rw [(addRows_keeps run.rows _).1] at hfin
  exact hfin

theorem openDir_eq {disk : Disk} {dir : String} (sf : Bool)
    (h : (disk dir).shards.isSome = true ∨ (disk dir).offsets.isSome = true)
    (hformat : (disk dir).format = none) :
    (openDir disk dir sf).1 = { loadShards disk dir with storeFirst := sf } := by
  have hdir : (loadShards disk dir).dir = dir := by
    rw [loadShards]
    split
    split <;> rfl
  rw [openDir, if_pos (by rw [Bool.or_eq_true]; exact h), loadDataFormat, hdir, hformat]

theorem Opened.with_storeFirst {disk : Disk} {all : Bool} {s : ℕ} {parts : List (List ScanRow)}
    {r : ScanResult} (h : Opened disk all s parts r) (sf : Bool) :
    Opened disk all s parts { r with storeFirst := sf } :=
  ⟨h.count, h.valueSize, h.writeError, h.hasAllTypes, h.shards⟩

theorem StoreRun.finished_format (run : StoreRun) : run.finished.2.format = none := by
  rw [finished, finalize_format, (addRows_keeps run.rows _).2]
  rfl

/-- What was added is what is read: from the finished results, from their directories opened
again, and from a manifest that lists them. -/
theorem scanResult_faithful {s : ℕ} {runs : List StoreRun} {disk : Disk}
    (hs : s ≤ sizeMax) (hrows : ∀ run ∈ runs, RowsOfSize false s run.rows)
    (hcount : (runs.flatMap StoreRun.rows).length ≤ sizeMax)
    (hdisk : ∀ run ∈ runs, disk run.dir = run.finished.2) :
    (∀ run ∈ runs, Serves disk s run.kept run.finished.1) ∧
    (∀ run ∈ runs, ∀ sf, Serves disk s run.kept (openDir disk run.dir sf).1) ∧
    (∀ dir, (∀ run ∈ runs, run.dir ≠ "" ∧ '\n' ∉ run.dir.toList) → (disk dir).format = none →
      (disk dir).shards = some (manifestText (runs.map fun run => (run.dir, run.rows.length))) →
      ∀ sf, Serves disk s (runs.flatMap StoreRun.kept) (openDir disk dir sf).1) := by
  have hlen : ∀ run ∈ runs, run.rows.length ≤ sizeMax := by
    intro run hrun
    refine le_trans ?_ hcount
    rw [List.length_flatMap]
    exact List.single_le_sum (fun _ _ => Nat.zero_le _) _ (List.mem_map.mpr ⟨run, hrun, rfl⟩)
  have hfin : ∀ run ∈ runs, Finished false run.storeFirst s run.rows run.dir run.finished.1
      run.finished.2 := fun run hrun => run.finished_spec (hrows run hrun) (hlen run hrun)
  have hstored : ∀ run ∈ runs, ∃ frames, StoredRows false s run.kept frames (disk run.dir) := by
    intro run hrun
    obtain ⟨frames, -, hst⟩ := (hfin run hrun).stored
    exact ⟨frames, by rw [hdisk run hrun]; exact hst⟩
  refine ⟨fun run hrun => ?_, fun run hrun sf => ?_, fun dir hnames hformat htext sf => ?_⟩
  · have := ((hfin run hrun).opened (hdisk run hrun)).serves
    simpa [StoreRun.kept] using this
  · obtain ⟨frames, hst⟩ := hstored run hrun
    obtain ⟨table, offs, hoffs, -⟩ := hst.decodes
    rw [openDir_eq sf (Or.inr (by rw [hoffs]; rfl))
      (by rw [hdisk run hrun]; exact run.finished_format)]
    have hopen := loadShards_dir hst (by rw [StoreRun.kept, List.length_map]; exact hlen run hrun) hs
    simpa using (hopen.with_storeFirst sf).serves
  · rw [openDir_eq sf (Or.inl (by rw [htext]; rfl)) hformat]
    have hkept : ∀ run : StoreRun, run.kept.length = run.rows.length :=
      fun run => List.length_map _
    have hopen := @loadShards_manifest disk false s dir
      (runs.map fun run => (run.dir, run.kept)) (by
        intro p hp
        obtain ⟨run, hrun, rfl⟩ := List.mem_map.mp hp
        exact ⟨(hnames run hrun).1, (hnames run hrun).2, hstored run hrun⟩) (by
        rw [htext, List.map_map]
        simp only [Function.comp_def, hkept]) hs (by
        rw [List.map_map, List.length_flatten, List.map_map]
        rw [List.length_flatMap] at hcount
        simpa only [Function.comp_def, hkept] using hcount) (fun _ => rfl)
    have hflat : ((runs.map fun run => (run.dir, run.kept)).map Prod.snd).flatten
        = runs.flatMap StoreRun.kept := by
      rw [List.map_map, List.flatMap_def]
      rfl
    rw [← hflat]
    exact (hopen.with_storeFirst sf).serves

/-- Two workers, one with descending addresses and first values, the other far above and
without, and the manifest over both. -/
theorem scanResult_faithful_two_shards :
    let low : StoreRun := ⟨"low", true, [⟨0x5000, [1, 0], [2, 0], 0⟩, ⟨0x1000, [3, 0], [4, 0], 0⟩]⟩
    let high : StoreRun := ⟨"high", false, [⟨0x700000000000, [5, 0], [6, 0], 0⟩]⟩
    let disk : Disk := fun d => if d = "low" then low.finished.2
      else if d = "high" then high.finished.2
      else { shards := some (manifestText [("low", 2), ("high", 1)]) }
    Serves disk 2 low.kept low.finished.1 ∧
      Serves disk 2 (low.kept ++ high.kept) (openDir disk "merged" false).1 := by
  intro low high disk
  have hrows : ∀ run ∈ [low, high], RowsOfSize false 2 run.rows := by
    intro run hrun
    simp only [List.mem_cons, List.not_mem_nil, or_false] at hrun
    rcases hrun with rfl | rfl
    · exact ⟨by decide, by decide, by decide, fun h => by cases h⟩
    · exact ⟨by decide, by decide, by decide, fun h => by cases h⟩
  have hdisk : ∀ run ∈ [low, high], disk run.dir = run.finished.2 := by
    intro run hrun
    simp only [List.mem_cons, List.not_mem_nil, or_false] at hrun
    rcases hrun with rfl | rfl
    · exact if_pos rfl
    · exact if_neg (by decide)
  obtain ⟨h1, -, h3⟩ := @scanResult_faithful 2 [low, high] disk (by decide) hrows (by decide) hdisk
  have hmerged : disk "merged" = { shards := some (manifestText [("low", 2), ("high", 1)]) } := by
    simp only [disk]
    rw [if_neg (by decide), if_neg (by decide)]
  refine ⟨h1 low List.mem_cons_self, ?_⟩
  have := h3 "merged" (by decide) (by rw [hmerged]) (by rw [hmerged]; rfl) false
  simpa using this

/-- A record that is wider than a 4096th of the address space is never streamed. -/
theorem forEach_wide {disk : Disk} {all : Bool} {s : ℕ} {parts : List (List ScanRow)}
    {r : ScanResult} (h : Opened disk all s parts r) (hs : s > sizeMax / batchRows) :
    r.forEach disk s = .ok [] := by
  have hv := h.valueSize
  rw [forEach]
  split
  · rfl
  · rename_i hgo
    rw [if_pos]
    rw [hv]
    split
    · rename_i hempty
      rw [hempty] at hv
      simp only [hv, Bool.or_eq_true, decide_eq_true_eq, not_or] at hgo
      simp at hgo
      omega
    · exact hs

/-- One match of `2 ^ 52` bytes: it is stored and read back, but `forEach` does not call back. -/
theorem forEach_skips_wide_value :
    let run : StoreRun := ⟨"wide", false, [⟨0x1000, List.replicate (2 ^ 52) 7,
      List.replicate (2 ^ 52) 7, 0⟩]⟩
    let disk : Disk := fun _ => run.finished.2
    RowsOfSize false (2 ^ 52) run.rows ∧ run.finished.1.count = 1 ∧
      run.finished.1.value disk 0 (2 ^ 52) = List.replicate (2 ^ 52) 7 ∧
      run.finished.1.forEach disk (2 ^ 52) = .ok [] ∧
      run.finished.1.forEach disk (2 ^ 52) ≠
        .ok (run.kept.map fun row => (row.address, row.value)) := by
  intro run disk
  have hrows : RowsOfSize false (2 ^ 52) run.rows := by
    refine ⟨by decide, ?_, ?_, fun h => by cases h⟩
    · intro row hrow
      rw [List.mem_singleton.mp hrow, List.length_replicate]
    · intro row hrow
      rw [List.mem_singleton.mp hrow, List.length_replicate]
  have hfin := run.finished_spec hrows (by decide)
  have hopen := @Finished.opened _ _ _ _ _ _ _ hfin disk rfl
  have hserves := hopen.serves
  have hnone := forEach_wide hopen (by decide)
  refine ⟨hrows, hserves.count, hserves.value 0 _ rfl, hnone, ?_⟩
  rw [hnone]
  intro h
  cases h

end CheatEngine
