import CheatEngineLinux.Scanner.ScanResultWrite

/-!
# Reading a result through its shards

However a result came to its shards, reading it is reading the concatenation of their rows.

* `ShardsHold` — the shards with their first global index, each over a directory that holds
  its rows;
* `Opened` — a result over such shards;
* `Opened.address_eq`, `Opened.value_eq`, `Opened.firstValue_eq`, `Opened.forEach_eq` —
  **PROVED**: the readers give the rows of the concatenation;
* `Opened.read_eq` — **PROVED**: so does the batch reader over any index range.
-/

namespace CheatEngine

open RecordFile ScanResult

/-- Consecutive shards from global index `cum` on, each with the rows its directory holds. -/
inductive ShardsHold (disk : Disk) (all : Bool) (s : ℕ) :
    ℕ → List Shard → List (List ScanRow) → Prop
  | nil (cum : ℕ) : ShardsHold disk all s cum [] []
  | cons {cum : ℕ} {dir : String} {frames : List AddressFrame} {shards : List Shard}
      {rows : List ScanRow} {parts : List (List ScanRow)}
      (stored : StoredRows all s rows frames (disk dir))
      (rest : ShardsHold disk all s (cum + rows.length) shards parts) :
      ShardsHold disk all s cum (⟨dir, rows.length, cum, frames⟩ :: shards) (rows :: parts)

/-- A result whose shards hold `parts`. -/
structure Opened (disk : Disk) (all : Bool) (s : ℕ) (parts : List (List ScanRow))
    (r : ScanResult) : Prop where
  count : r.count = parts.flatten.length
  valueSize : r.valueSize = if parts.flatten.isEmpty then 0 else s
  writeError : r.writeError = false
  hasAllTypes : r.hasAllTypes = all
  shards : ShardsHold disk all s 0 r.shards parts

theorem Finished.opened {all sf : Bool} {s : ℕ} {rows : List ScanRow} {dir : String}
    {r : ScanResult} {files : ResultDir} (h : Finished all sf s rows dir r files) {disk : Disk}
    (hdisk : disk dir = files) : Opened disk all s [rows.map (ScanRow.kept sf)] r := by
  obtain ⟨frames, hshards, hstored⟩ := h.stored
  have hflat : [rows.map (ScanRow.kept sf)].flatten = rows.map (ScanRow.kept sf) := by simp
  refine ⟨?_, ?_, h.writeError, h.hasAllTypes, ?_⟩
  · rw [hflat, List.length_map, h.count]
  · rw [hflat, h.valueSize, List.isEmpty_map]
  · rw [hshards]
    have hc := @ShardsHold.cons disk all s 0 dir frames [] (rows.map (ScanRow.kept sf)) []
      (hdisk ▸ hstored) (ShardsHold.nil _)
    rw [List.length_map] at hc
    exact hc

section Single

variable {disk : Disk} {all : Bool} {s : ℕ} {parts : List (List ScanRow)} {r : ScanResult}
  {i : ℕ} {row : ScanRow}

theorem ShardsHold.find {cum : ℕ} {shards : List Shard} (h : ShardsHold disk all s cum shards parts)
    (hi : parts.flatten[i]? = some row) :
    ∃ sh rows j, shards.find? (fun s => decide (s.cum ≤ cum + i) && decide (cum + i < s.cum + s.count))
        = some sh ∧
      StoredRows all s rows sh.frames (disk sh.dir) ∧ sh.cum + j = cum + i ∧
      sh.count = rows.length ∧ rows[j]? = some row := by
  induction h generalizing i with
  | nil => simp at hi
  | @cons cum dir frames shards rows parts stored rest ih =>
    rw [List.flatten_cons] at hi
    rw [List.find?_cons]
    by_cases hlt : i < rows.length
    · rw [List.getElem?_append_left hlt] at hi
      have hc : (decide (cum ≤ cum + i) && decide (cum + i < cum + rows.length)) = true := by
        simp [hlt]
      simp only [hc]
      exact ⟨_, rows, i, rfl, stored, rfl, rfl, hi⟩
    · rw [List.getElem?_append_right (by omega)] at hi
      have hc : (decide (cum ≤ cum + i) && decide (cum + i < cum + rows.length)) = false := by
        simp only [Bool.and_eq_false_iff, decide_eq_false_iff_not]
        omega
      simp only [hc]
      obtain ⟨sh, rows', j, h1, h2, h3, h4⟩ := ih hi
      rw [show cum + rows.length + (i - rows.length) = cum + i by omega] at h1 h3
      exact ⟨sh, rows', j, h1, h2, h3, h4⟩

theorem offsetOf_offsetBytes (o : UInt32) : offsetOf (offsetBytes o) = o := by
  rw [offsetOf, offsetBytes, leNat_leBytes 4 _ o.toNat_lt, UInt32.ofNat_toNat]

theorem Opened.valueSize_eq (h : Opened disk all s parts r) (hi : parts.flatten[i]? = some row) :
    r.valueSize = s := by
  have hne : parts.flatten.isEmpty = false := by
    cases hp : parts.flatten with
    | nil => rw [hp] at hi; simp at hi
    | cons => rfl
  rw [h.valueSize, hne]
  rfl

theorem Opened.address_eq (h : Opened disk all s parts r) (hi : parts.flatten[i]? = some row) :
    r.address disk i = row.address := by
  obtain ⟨sh, rows, j, hfind, hstored, hj, -, hrow⟩ := h.shards.find hi
  obtain ⟨table, offs, hoffs, hframes, hplace⟩ := hstored.decodes
  rw [Nat.zero_add] at hfind hj
  have hlen : j < offs.length := by
    rw [hframes.offs_length, List.length_map]
    exact (List.getElem?_eq_some_iff.mp hrow).1
  have ho : offs[j]? = some offs[j] := List.getElem?_eq_getElem hlen
  have hread : pread (offs.flatMap offsetBytes) 4 (j * 4) = some (offsetBytes offs[j]) := by
    rw [pread_record offs (fun o _ => offsetBytes_length o) ho (le_refl 4)]
    rw [List.take_of_length_le (by rw [offsetBytes_length])]
  rw [address, shardAt, hfind]
  simp only
  rw [show i - sh.cum = j by omega, hoffs, Option.bind_some, hread]
  simp only
  rw [offsetOf_offsetBytes, hplace]
  exact hframes.reconstruct_eq (by rw [List.getElem?_map, hrow]; rfl) ho

theorem Opened.value_eq (h : Opened disk all s parts r) (hi : parts.flatten[i]? = some row) :
    r.value disk i s = row.value := by
  obtain ⟨sh, rows, j, hfind, hstored, hj, -, hrow⟩ := h.shards.find hi
  have hsize := hstored.sized
  rw [Nat.zero_add] at hfind hj
  have hv := h.valueSize_eq hi
  have hpos := hsize.pos
  have hlen := hsize.value row (List.mem_of_getElem? hrow)
  rw [value, if_neg (by simp [h.writeError, hv]; omega), shardAt, hfind]
  simp only
  rw [show i - sh.cum = j by omega, hv, hstored.values, Option.bind_some,
    pread_record rows hsize.value hrow (le_refl s), List.take_of_length_le (by omega)]
  rfl

theorem Opened.firstValue_eq (h : Opened disk all s parts r)
    (hi : parts.flatten[i]? = some row) : r.firstValue disk i s = row.first := by
  obtain ⟨sh, rows, j, hfind, hstored, hj, -, hrow⟩ := h.shards.find hi
  have hsize := hstored.sized
  rw [Nat.zero_add] at hfind hj
  have hv := h.valueSize_eq hi
  have hpos := hsize.pos
  have hmem := List.mem_of_getElem? hrow
  have hlen := hsize.first row hmem
  rw [firstValue, if_neg (by simp [h.writeError, hv]; omega), shardAt, hfind]
  simp only
  rcases hstored.firstValues with hfirst | ⟨hnone, hsame⟩
  · rw [hfirst]
    simp only
    rw [show i - sh.cum = j by omega, hv, pread_record rows hsize.first hrow (le_refl s),
      List.take_of_length_le (by omega)]
    rfl
  · rw [hnone]
    simp only
    rw [h.value_eq hi, hsame row hmem]

end Single

/-! ### Streaming -/

section Stream

variable {disk : Disk} {all : Bool} {s : ℕ} {rows : List ScanRow} {files : ResultDir}

theorem batch_rows {table : List (UInt64 × ℕ)} {offs : List UInt32}
    (hframes : FramesFor table offs (rows.map ScanRow.address))
    (hsize : ∀ row ∈ rows, row.value.length = s) {i n : ℕ} (hin : i + n ≤ rows.length) :
    (List.range n).map (fun j =>
        (reconstruct (placeFrames 0 table) (i + j)
            (offsetOf (((((offs.drop i).take n).flatMap offsetBytes).drop (j * 4)).take 4)),
          ((((rows.drop i).take n).flatMap ScanRow.value).drop (j * s)).take s)) =
      ((rows.drop i).take n).map fun row => (row.address, row.value) := by
  have hol : offs.length = rows.length := by rw [hframes.offs_length, List.length_map]
  apply List.ext_getElem
  · rw [List.length_map, List.length_map, List.length_range, List.length_take, List.length_drop]
    omega
  · intro j h1 h2
    rw [List.length_map, List.length_range] at h1
    simp only [List.getElem_map, List.getElem_range, List.getElem_take, List.getElem_drop]
    have ho : ((offs.drop i).take n)[j]? = some offs[i + j] := by
      rw [List.getElem?_take, if_pos h1, List.getElem?_drop,
        List.getElem?_eq_getElem (by omega)]
    have hr : ((rows.drop i).take n)[j]? = some rows[i + j] := by
      rw [List.getElem?_take, if_pos h1, List.getElem?_drop,
        List.getElem?_eq_getElem (by omega)]
    have hoff := @pread_record _ offsetBytes 4 ((offs.drop i).take n)
      (fun o _ => offsetBytes_length o) j 4 _ ho (le_refl 4)
    have hval := @pread_record _ ScanRow.value s ((rows.drop i).take n)
      (fun row h => hsize row (List.mem_of_mem_drop (List.mem_of_mem_take h))) j s _ hr (le_refl s)
    simp only [pread] at hoff hval
    split at hoff
    · split at hval
      · rw [Option.some.inj hoff, Option.some.inj hval,
          List.take_of_length_le (by rw [offsetBytes_length]),
          List.take_of_length_le (by rw [hsize _ (List.getElem_mem _)]), offsetOf_offsetBytes]
        congr 1
        apply hframes.reconstruct_eq
        · rw [List.getElem?_map, List.getElem?_eq_getElem (by omega)]
          rfl
        · exact List.getElem?_eq_getElem (by omega)
      · cases hval
    · cases hoff

theorem streamShard_eq {table : List (UInt64 × ℕ)} {offs : List UInt32}
    (hframes : FramesFor table offs (rows.map ScanRow.address))
    (hsize : ∀ row ∈ rows, row.value.length = s) (dir : String) (cum i : ℕ) :
    streamShard ⟨dir, rows.length, cum, placeFrames 0 table⟩ s s i
        ((offs.drop i).flatMap offsetBytes) ((rows.drop i).flatMap ScanRow.value) =
      (rows.drop i).map fun row => (row.address, row.value) := by
  have hol : offs.length = rows.length := by rw [hframes.offs_length, List.length_map]
  -- induction on the rows left, one batch at a time
  induction hk : rows.length - i using Nat.strong_induction_on generalizing i with
  | _ k ih =>
    rw [streamShard]
    by_cases hi : i < rows.length
    · simp only [hi, if_true]
      set n := min (rows.length - i) batchRows with hn
      have hpos : 0 < n := by
        rw [hn, batchRows]
        omega
      have ho := @pread_flatMap _ offsetBytes 4 (offs.drop i)
        (fun o _ => offsetBytes_length o) 0 n (by rw [List.length_drop]; omega)
      have hv := @pread_flatMap _ ScanRow.value s (rows.drop i)
        (fun row h => hsize row (List.mem_of_mem_drop h)) 0 n (by rw [List.length_drop]; omega)
      rw [Nat.zero_mul, List.drop_zero] at ho hv
      rw [ho, hv]
      simp only
      rw [batch_rows hframes hsize (by omega),
        drop_flatMap (offs.drop i) (fun o _ => offsetBytes_length o),
        drop_flatMap (rows.drop i) (fun row h => hsize row (List.mem_of_mem_drop h)),
        List.drop_drop, List.drop_drop, ih (rows.length - (i + n)) (by omega) (i + n) rfl,
        ← List.map_append]
      congr 1
      rw [← List.drop_drop, List.take_append_drop]
    · rw [if_neg hi, List.drop_eq_nil_of_le (by omega)]
      rfl

theorem ShardsHold.stream {cum : ℕ} {shards : List Shard} {parts : List (List ScanRow)}
    (h : ShardsHold disk all s cum shards parts) :
    shards.flatMap (shardRows disk s s) =
      parts.flatten.map fun row => (row.address, row.value) := by
  induction h with
  | nil => rfl
  | @cons cum dir frames shards rows parts stored rest ih =>
    rw [List.flatMap_cons, ih, List.flatten_cons, List.map_append]
    congr 1
    rw [shardRows]
    split
    · rename_i h0
      rw [List.length_eq_zero_iff.mp h0]
      rfl
    · obtain ⟨table, offs, hoffs, hframes, hplace⟩ := stored.decodes
      rw [hoffs, stored.values, hplace]
      have := streamShard_eq hframes stored.sized.value dir cum 0
      simp only [List.drop_zero] at this
      exact this

theorem Opened.forEach_eq {parts : List (List ScanRow)} {r : ScanResult}
    (h : Opened disk all s parts r) (hs : batchRows * s ≤ 2 ^ 63 - 1) :
    r.forEach disk s = .ok (parts.flatten.map fun row => (row.address, row.value)) := by
  have hsize : s ≤ sizeMax / batchRows := by
    rw [sizeMax, batchRows] at *
    omega
  have hv := h.valueSize
  have hstream := h.shards.stream
  rw [forEach, h.writeError]
  cases hflat : parts.flatten with
  | nil =>
    rw [hflat] at hv
    rw [if_pos]
    · rfl
    · rw [hv]
      simp only [List.isEmpty_nil, if_true, Bool.false_or, Bool.or_eq_true, beq_iff_eq,
        decide_eq_true_eq]
      omega
  | cons row rest =>
    rw [hflat] at hv
    have hv' : r.valueSize = s := hv
    have hpos : 0 < s := by
      obtain ⟨sh, rows, j, -, hst, -⟩ := h.shards.find
        (show parts.flatten[0]? = some row by rw [hflat]; rfl)
      exact hst.sized.pos
    rw [hv', if_neg (by simp; omega), if_neg (by omega), if_neg (by omega), hstream, hflat]

end Stream

/-! ### The batch reader -/

def batchOf (rows : List ScanRow) (wantCandidates : Bool) : ReadBatch where
  addrs := rows.map ScanRow.address
  oldVals := rows.flatMap ScanRow.value
  firstVals := rows.flatMap ScanRow.first
  candidates := if wantCandidates then rows.map ScanRow.mask else []

section Reader

variable {disk : Disk} {all : Bool} {s : ℕ} {parts : List (List ScanRow)}

theorem records_take {α : Type} {enc : α → List UInt8} {k n : ℕ} (l : List α)
    (h : ∀ a ∈ l, (enc a).length = k) (hn : l.length = n) :
    records k n (l.flatMap enc) = l.map enc := by
  rw [← hn]
  exact records_flatMap l h

theorem readCandidates_eq {rows : List ScanRow} {frames : List AddressFrame} {files : ResultDir}
    (h : StoredRows all s rows frames files) (cum : ℕ) {i n : ℕ} (hin : i + n ≤ rows.length) :
    ShardReader.readCandidates (ShardReader.openShard files rows.length cum all) i n all =
      some (batchOf ((rows.drop i).take n) all).candidates := by
  cases all
  · rfl
  · have hm : files.allTypes = some (rows.map ScanRow.mask) := h.masks
    have hopen : openAllTypeCandidates files rows.length false
        = .opened (rows.map ScanRow.mask) := by
      rw [openAllTypeCandidates, hm]
      simp
    have hlen : i + n ≤ (rows.map ScanRow.mask).length := by rw [List.length_map]; exact hin
    have hgood : (!(((rows.map ScanRow.mask).drop i).take n).any badMask) = true := by
      rw [Bool.not_eq_true', List.any_eq_false]
      intro m hm
      rw [← List.map_drop, ← List.map_take] at hm
      obtain ⟨row, hrow, rfl⟩ := List.mem_map.mp hm
      rw [(h.sized.masks rfl).2 row (List.mem_of_mem_drop (List.mem_of_mem_take hrow))]
      decide
    simp only [ShardReader.readCandidates, ShardReader.openShard, hopen, if_true, Option.bind_some]
    rw [pread_eq_some hlen, Option.filter_some, if_pos hgood, ← List.map_drop, ← List.map_take]
    rfl

theorem readShard_eq {rows : List ScanRow} {frames : List AddressFrame} {files : ResultDir}
    (h : StoredRows all s rows frames files) (cum : ℕ) {i n : ℕ} (hin : i + n ≤ rows.length) :
    ShardReader.readShard (ShardReader.openShard files rows.length cum all) i n s all =
      some (batchOf ((rows.drop i).take n) all) := by
  obtain ⟨table, offs, hoffs, hframes, hplace⟩ := h.decodes
  have hol : offs.length = rows.length := by rw [hframes.offs_length, List.length_map]
  have hro := @pread_flatMap _ offsetBytes 4 offs (fun o _ => offsetBytes_length o) i n (by omega)
  have hrv := @pread_flatMap _ ScanRow.value s rows h.sized.value i n hin
  have hrf := @pread_flatMap _ ScanRow.first s rows h.sized.first i n hin
  have hdec := hframes.decodeOffsets_eq (show i + n ≤ _ by rw [List.length_map]; exact hin)
  have hrec : (records 4 n (((offs.drop i).take n).flatMap offsetBytes)).map offsetOf
      = (offs.drop i).take n := by
    rw [records_take _ (fun o _ => offsetBytes_length o)
      (by rw [List.length_take, List.length_drop]; omega), List.map_map]
    exact (List.map_congr_left fun o _ => offsetOf_offsetBytes o).trans (List.map_id _)
  have hfirst : ShardReader.readFirst (ShardReader.openShard files rows.length cum all) i n s
      (((rows.drop i).take n).flatMap ScanRow.value)
      = some (((rows.drop i).take n).flatMap ScanRow.first) := by
    simp only [ShardReader.readFirst, ShardReader.openShard]
    rcases h.firstValues with hf | ⟨hf, hsame⟩
    · rw [hf]
      exact hrf
    · rw [hf]
      simp only
      congr 1
      apply List.flatMap_congr
      intro row hrow
      exact (hsame row (List.mem_of_mem_drop (List.mem_of_mem_take hrow))).symm
  simp only [ShardReader.readShard, Option.bind_eq_bind]
  rw [show (ShardReader.openShard files rows.length cum all).offsets = files.offsets from rfl,
    show (ShardReader.openShard files rows.length cum all).frames = loadFrames files from rfl,
    show (ShardReader.openShard files rows.length cum all).values = files.values from rfl,
    hoffs, h.loads, h.values, hplace]
  simp only [Option.bind_some, hro, hrec, hdec, hrv, hfirst, readCandidates_eq h cum hin]
  rw [← List.map_drop, ← List.map_take]
  rfl

theorem ShardsHold.findReader {cum i : ℕ} {shards : List Shard}
    (h : ShardsHold disk all s cum shards parts) (hi : i < parts.flatten.length) :
    ∃ dir frames rows cum' j rest,
      ShardReader.shardOf (ShardReader.openFrom disk all cum
          (shards.map fun sh => (sh.dir, sh.count))) (cum + i)
        = some (ShardReader.openShard (disk dir) rows.length cum' all) ∧
      StoredRows all s rows frames (disk dir) ∧ cum' + j = cum + i ∧ j < rows.length ∧
      parts.flatten.drop i = rows.drop j ++ rest := by
  induction h generalizing i with
  | nil => simp at hi
  | @cons cum dir frames shards rows parts stored rest ih =>
    rw [List.map_cons, ShardReader.openFrom, ShardReader.shardOf, List.find?_cons]
    by_cases hlt : i < rows.length
    · have hc : (decide (cum ≤ cum + i) && decide (cum + i < cum + rows.length)) = true := by
        simp [hlt]
      refine ⟨dir, frames, rows, cum, i, parts.flatten, ?_, stored, rfl, hlt, ?_⟩
      · simp only [ShardReader.openShard, hc]
      · rw [List.flatten_cons, List.drop_append_of_le_length (by omega)]
    · have hc : (decide (cum ≤ cum + i) && decide (cum + i < cum + rows.length)) = false := by
        simp only [Bool.and_eq_false_iff, decide_eq_false_iff_not]
        omega
      have hi' : i - rows.length < parts.flatten.length := by
        rw [List.flatten_cons, List.length_append] at hi
        omega
      obtain ⟨d, fr, rs, c', j, rest', h1, h2, h3, h4, h5⟩ := ih hi'
      rw [show cum + rows.length + (i - rows.length) = cum + i by omega] at h1 h3
      refine ⟨d, fr, rs, c', j, rest', ?_, h2, h3, h4, ?_⟩
      · simp only [ShardReader.openShard, hc]
        exact h1
      · rw [List.flatten_cons, List.drop_append, List.drop_eq_nil_of_le (by omega),
          List.nil_append, h5]

theorem batchOf_append (rows rows' : List ScanRow) (want : Bool) :
    batchOf (rows ++ rows') want =
      { addrs := (batchOf rows want).addrs ++ (batchOf rows' want).addrs
        oldVals := (batchOf rows want).oldVals ++ (batchOf rows' want).oldVals
        firstVals := (batchOf rows want).firstVals ++ (batchOf rows' want).firstVals
        candidates := (batchOf rows want).candidates ++ (batchOf rows' want).candidates } := by
  simp only [batchOf, List.map_append, List.flatMap_append]
  cases want <;> rfl

theorem ShardsHold.read_eq {shards : List Shard} (h : ShardsHold disk all s 0 shards parts)
    (i n : ℕ) (hin : i + n ≤ parts.flatten.length) :
    (ShardReader.create disk (shards.map fun sh => (sh.dir, sh.count)) all).read i n s all =
      some (batchOf ((parts.flatten.drop i).take n) all) := by
  induction n using Nat.strong_induction_on generalizing i with
  | _ n ih =>
    rw [ShardReader.read]
    by_cases hn : n = 0
    · rw [if_pos hn, hn, List.take_zero]
      cases all <;> rfl
    · rw [if_neg hn]
      obtain ⟨dir, frames, rows, cum', j, rest, hfind, hstored, hj, hjlt, hdrop⟩ :=
        h.findReader (show i < _ by omega)
      rw [Nat.zero_add] at hfind hj
      have hsh : ShardReader.shardOf (ShardReader.create disk
          (shards.map fun sh => (sh.dir, sh.count)) all).shards i
          = some (ShardReader.openShard (disk dir) rows.length cum' all) := hfind
      have hcount : (ShardReader.openShard (disk dir) rows.length cum' all).count = rows.length :=
        rfl
      have hcum : (ShardReader.openShard (disk dir) rows.length cum' all).cum = cum' := rfl
      split
      · rename_i hnone
        rw [hsh] at hnone
        cases hnone
      · rename_i sh hsome
        rw [hsh] at hsome
        cases hsome
        rw [hcount, hcum, show i - cum' = j by omega]
        simp only
        set take := min (rows.length - j) n with htake
        rw [readShard_eq hstored cum' (show j + take ≤ rows.length by omega)]
        simp only
        rw [ih (n - take) (by omega) (i + take) (by omega), Option.map_some, ← batchOf_append]
        congr 2
        -- the rows of this shard, then those of the shards behind it
        have htk : (rows.drop j).take take = (parts.flatten.drop i).take take := by
          rw [hdrop, List.take_append_of_le_length (by rw [List.length_drop]; omega)]
        rw [htk, ← List.drop_drop, ← List.take_add, show take + (n - take) = n by omega]

theorem Opened.layout_eq {r : ScanResult} (h : Opened disk all s parts r) :
    r.shardLayout = r.shards.map fun sh => (sh.dir, sh.count) := by
  rw [shardLayout]
  split
  · rfl
  · rename_i hempty
    have hnil : r.shards = [] := by simpa using hempty
    have hcount : r.count = 0 := by
      have hs := h.shards
      rw [hnil] at hs
      cases hs
      rw [h.count]
      rfl
    rw [hnil, hcount]
    rfl

theorem Opened.read_eq {r : ScanResult} (h : Opened disk all s parts r) {i n : ℕ}
    (hin : i + n ≤ parts.flatten.length) :
    (ShardReader.create disk r.shardLayout all).read i n s all =
      some (batchOf ((parts.flatten.drop i).take n) all) := by
  rw [h.layout_eq]
  exact h.shards.read_eq i n hin

end Reader

end CheatEngine
