import CheatEngineLinux.Scanner.FirstScanRun

/-!
# A first scan finds every match once

* `clipRegion_ok` — **PROVED**: what clipping leaves of a region;
* `chunksOf_addresses` — **PROVED**: the chunks of a range find what one search of the range
  finds, if they own whole strides;
* `firstScan_complete_iff` — **PROVED**: the condition under which a first scan lists the matches
  of every region for every memory image.  Only UTF-16 texts have one: their stride is 2, and
  chunks own multiples of the configured alignment.
-/

namespace CheatEngine

open RecordFile ScanResult StridedScan

/-! ### Clipped regions -/

structure Clipped (config : ScanConfig) (r c : MemoryRegion) : Prop where
  pos : 0 < c.size
  fits : c.base.toNat + c.size ≤ sizeMax + 1
  grid : scanGrid config ∣ c.base.toNat
  from_le : max r.base.toNat config.startAddress.toNat ≤ c.base.toNat
  least : c.base.toNat < max r.base.toNat config.startAddress.toNat + scanGrid config
  stop : c.base.toNat + c.size = min (r.base.toNat + r.size) (config.stopAddress.toNat + 1)
  type : c.type = r.type

theorem scanGrid_pos (config : ScanConfig) : 0 < scanGrid config := by
  rw [scanGrid]
  split <;> omega

theorem clipRegion_ok {config : ScanConfig} {r c : MemoryRegion}
    (h : clipRegion config r = .ok (some c)) : Clipped config r c := by
  have hgrid := scanGrid_pos config
  rw [clipRegion] at h
  split at h
  · cases h
  · rename_i hallowed
    split at h
    · cases h
    · rename_i hover
      dsimp only at h
      have hsize : r.size ≠ 0 := by
        intro h0
        simp [h0] at hallowed
      have hstop := config.stopAddress.toNat_lt
      have hbase := r.base.toNat_lt
      obtain ⟨start, hstart⟩ : ∃ n, n = max r.base.toNat config.startAddress.toNat := ⟨_, rfl⟩
      obtain ⟨add, hadd⟩ : ∃ n, n = (if start % scanGrid config = 0 then 0
        else scanGrid config - start % scanGrid config) := ⟨_, rfl⟩
      rw [← hstart, ← hadd] at h
      have hmod := Nat.mod_lt start hgrid
      have hdiv := Nat.div_add_mod start (scanGrid config)
      have hdvd : scanGrid config ∣ start + add ∧ add < scanGrid config := by
        rw [hadd]
        split
        · exact ⟨by rw [Nat.add_zero]; exact Nat.dvd_of_mod_eq_zero ‹_›, hgrid⟩
        · refine ⟨⟨start / scanGrid config + 1, ?_⟩, by omega⟩
          rw [Nat.mul_add, Nat.mul_one]
          omega
      split at h
      · cases h
      · split at h
        · cases h
        · rename_i hlow hin
          simp only [Bool.or_eq_true, decide_eq_true_eq, not_or, Nat.not_lt, ge_iff_le,
            Nat.not_le] at hin
          cases h
          have htoNat : (UInt64.ofNat (start + add)).toNat = start + add :=
            UInt64.toNat_ofNat_of_lt' (by rw [UInt64.size]; omega)
          have hend : start + add + (if config.stopAddress.toNat - (start + add)
              < r.size - (start + add - r.base.toNat) - 1
              then config.stopAddress.toNat - (start + add) + 1
              else r.size - (start + add - r.base.toNat))
              = min (r.base.toNat + r.size) (config.stopAddress.toNat + 1) := by
            split <;> omega
          rw [sizeMax] at hover hlow
          refine ⟨?_, ?_, ?_, ?_, ?_, ?_, rfl⟩
          · dsimp only
            split <;> omega
          · dsimp only
            rw [htoNat, hend, sizeMax]
            omega
          · exact htoNat.symm ▸ hdvd.1
          · exact htoNat.symm ▸ (by omega)
          · exact htoNat.symm ▸ (by omega)
          · exact htoNat.symm ▸ hend

theorem Clipped.inside {config : ScanConfig} {r c : MemoryRegion} (h : Clipped config r c) :
    r.base.toNat ≤ c.base.toNat ∧ c.base.toNat + c.size ≤ r.base.toNat + r.size := by
  have h1 := h.from_le
  have h2 := h.stop
  omega

theorem clipRegions_forall₂ {config : ScanConfig} {regions clipped : List MemoryRegion}
    (h : clipRegions config regions = .ok clipped) :
    ∃ from_ : List MemoryRegion, from_.Sublist regions ∧
      List.Forall₂ (Clipped config) from_ clipped := by
  induction regions generalizing clipped with
  | nil =>
    cases h
    exact ⟨[], List.Sublist.refl _, List.Forall₂.nil⟩
  | cons r regions ih =>
    simp only [clipRegions, bind_eq_ok] at h
    obtain ⟨c, hc, rest, hrest, h⟩ := h
    cases h
    obtain ⟨from_, hsub, hall⟩ := ih hrest
    cases c with
    | none => exact ⟨from_, hsub.cons _, hall⟩
    | some c => exact ⟨r :: from_, hsub.cons_cons _, List.Forall₂.cons (clipRegion_ok hc) hall⟩

/-- Regions without a common address. -/
def MemoryRegion.Disjoint (r r' : MemoryRegion) : Prop :=
  r.base.toNat + r.size ≤ r'.base.toNat ∨ r'.base.toNat + r'.size ≤ r.base.toNat

instance : Std.Symm MemoryRegion.Disjoint := ⟨fun _ _ h => Or.symm h⟩

theorem clipped_disjoint {config : ScanConfig} {from_ clipped : List MemoryRegion}
    (h : List.Forall₂ (Clipped config) from_ clipped) (hd : from_.Pairwise MemoryRegion.Disjoint) :
    clipped.Pairwise MemoryRegion.Disjoint := by
  induction h with
  | nil => exact List.Pairwise.nil
  | @cons r c from_ clipped hc hall ih =>
    rw [List.pairwise_cons] at hd ⊢
    refine ⟨fun c' hc' => ?_, ih hd.2⟩
    obtain ⟨r', hr', hcl⟩ : ∃ r' ∈ from_, Clipped config r' c' := by
      clear ih hd
      induction hall with
      | nil => cases hc'
      | @cons r' c'' from_ clipped hc'' hall ih =>
        rcases List.mem_cons.mp hc' with rfl | hmem
        · exact ⟨r', List.mem_cons_self, hc''⟩
        · obtain ⟨a, ha, hca⟩ := ih hmem
          exact ⟨a, List.mem_cons_of_mem _ ha, hca⟩
    have hdis := hd.1 r' hr'
    have h1 := hc.inside
    have h2 := hcl.inside
    rw [MemoryRegion.Disjoint] at hdis ⊢
    omega

theorem totalSpan_ok {total n : ℕ} {regions : List MemoryRegion}
    (h : totalSpan total regions = .ok n) (ht : total ≤ sizeMax) :
    n = total + (regions.map MemoryRegion.size).sum ∧ n ≤ sizeMax := by
  induction regions generalizing total with
  | nil =>
    cases h
    exact ⟨rfl, ht⟩
  | cons r regions ih =>
    rw [totalSpan] at h
    split at h
    · cases h
    · obtain ⟨h1, h2⟩ := ih h (by omega)
      refine ⟨?_, h2⟩
      rw [h1, List.map_cons, List.sum_cons]
      omega

/-! ### The plan -/

theorem encodeTerms_ok {iconv : String → List UInt8 → Option (List UInt8)} {order : ByteOrder}
    {terms out : List GroupedTerm} (h : encodeTerms iconv order terms = .ok out) :
    ∀ term ∈ out, term.valueType = .unicodeString →
      utf16Bytes iconv term.stringValue order = .ok term.byteArray := by
  induction terms generalizing out with
  | nil =>
    cases h
    intro term hterm
    cases hterm
  | cons t terms ih =>
    rw [encodeTerms] at h
    split at h
    · simp only [bind_eq_ok, pure, Except.pure, Except.ok.injEq] at h
      obtain ⟨bytes, hbytes, t', rfl, rest, hrest, rfl⟩ := h
      intro term hterm hv
      rcases List.mem_cons.mp hterm with rfl | hmem
      · exact hbytes
      · exact ih hrest term hmem hv
    · rename_i hnot
      simp only [bind_eq_ok, pure, Except.pure, Except.ok.injEq] at h
      obtain ⟨t', rfl, rest, hrest, rfl⟩ := h
      intro term hterm hv
      rcases List.mem_cons.mp hterm with rfl | hmem
      · exact absurd hv hnot
      · exact ih hrest term hmem hv

theorem targetScanConfig_terms {iconv : String → List UInt8 → Option (List UInt8)}
    {description : TargetDescription} {requested config : ScanConfig}
    (h : targetScanConfig iconv description requested = .ok config) :
    TermsEncoded iconv config := by
  simp only [targetScanConfig, bind_eq_ok, refuseIf_eq_ok] at h
  obtain ⟨-, -, -, -, -, -, -, -, -, -, -, -, terms, hterms, flipped, hflip, -, -, h⟩ := h
  cases h
  obtain ⟨-, -, horder, -, -, -, hkept⟩ := flipNegativeAmount_ok hflip
  rw [TermsEncoded, hkept, horder]
  exact encodeTerms_ok hterms

structure FirstPlanned (iconv : String → List UInt8 → Option (List UInt8)) (target : FirstScanTarget)
    (requested : ScanConfig) (plan : FirstPlan) : Prop where
  config : TargetConfig requested plan.config
  terms : TermsEncoded iconv plan.config
  regions : ∃ from_ : List MemoryRegion, from_.Sublist target.regions ∧
    List.Forall₂ (Clipped plan.config) from_ plan.regions
  total : plan.total = (plan.regions.map MemoryRegion.size).sum
  max : plan.total ≤ sizeMax

theorem firstScanPlan_ok {iconv : String → List UInt8 → Option (List UInt8)}
    {target : FirstScanTarget} {requested : ScanConfig} {plan : FirstPlan}
    (h : firstScanPlan iconv target requested = .ok plan) :
    FirstPlanned iconv target requested plan := by
  simp only [firstScanPlan, bind_eq_ok] at h
  obtain ⟨config, hconfig, -, -, -, -, regions, hregions, total, htotal, h⟩ := h
  cases h
  obtain ⟨h1, h2⟩ := totalSpan_ok htotal (Nat.zero_le _)
  exact ⟨targetScanConfig_ok hconfig, targetScanConfig_terms hconfig, clipRegions_forall₂ hregions,
    by rw [h1, Nat.zero_add], h2⟩

theorem firstScanPlan_eq {iconv : String → List UInt8 → Option (List UInt8)}
    {target : FirstScanTarget} {requested config : ScanConfig} {regions : List MemoryRegion}
    {total : ℕ} (hconfig : targetScanConfig iconv target.description requested = .ok config)
    (hcheck : checkFirstCompare iconv config = .ok ())
    (hremote : (target.remote && target.regions.isEmpty) = false)
    (hregions : clipRegions config target.regions = .ok regions)
    (htotal : totalSpan 0 regions = .ok total) :
    firstScanPlan iconv target requested = .ok ⟨config, regions, total⟩ := by
  rw [firstScanPlan, hconfig]
  simp only [bind, Except.bind, hcheck, hremote, refuseIf, Bool.false_eq_true, if_false, hregions,
    htotal]
  rfl

theorem FirstPlanned.clipped {iconv : String → List UInt8 → Option (List UInt8)}
    {target : FirstScanTarget} {requested : ScanConfig} {plan : FirstPlan}
    (h : FirstPlanned iconv target requested plan) {c : MemoryRegion} (hc : c ∈ plan.regions) :
    ∃ r ∈ target.regions, Clipped plan.config r c := by
  obtain ⟨from_, hsub, hall⟩ := h.regions
  obtain ⟨i, hi, rfl⟩ := List.getElem_of_mem hc
  have hlen := hall.length_eq
  exact ⟨from_[i], hsub.subset (List.getElem_mem _), hall.get (by omega) hi⟩

/-! ### Chunks of an image -/

/-- `n` bytes of a memory image. -/
def imageAt (mem : ℕ → UInt8) (base n : ℕ) : List UInt8 := (List.range n).map fun i => mem (base + i)

@[simp] theorem imageAt_length (mem : ℕ → UInt8) (base n : ℕ) : (imageAt mem base n).length = n := by
  rw [imageAt, List.length_map, List.length_range]

theorem imageAt_getElem? (mem : ℕ → UInt8) (base : ℕ) {n i : ℕ} (h : i < n) :
    (imageAt mem base n)[i]? = some (mem (base + i)) := by
  rw [imageAt, List.getElem?_map, List.getElem?_range h]
  rfl

theorem imageAt_window (mem : ℕ → UInt8) {base n o k : ℕ} (h : o + k ≤ n) :
    ((imageAt mem base n).drop o).take k = imageAt mem (base + o) k := by
  refine List.ext_getElem? fun i => ?_
  by_cases hi : i < k
  · rw [List.getElem?_take_of_lt hi, List.getElem?_drop, imageAt_getElem? mem base (by omega),
      imageAt_getElem? mem _ hi, Nat.add_assoc]
  · rw [List.getElem?_eq_none (by simp; omega), List.getElem?_eq_none (by simp; omega)]

/-- Every read within a range returns the image's bytes. -/
def ReadsRange (target : FirstScanTarget) (mem : ℕ → UInt8) (range : UInt64 × ℕ) : Prop :=
  ∀ (a : UInt64) (n : ℕ), range.1 ≤ a → a.toNat + n ≤ range.1.toNat + range.2 →
    target.read a n = imageAt mem a.toNat n

section Ranges

variable {iconv : String → List UInt8 → Option (List UInt8)} {σ : Type} {lua : FormulaEvaluator σ}
  {target : FirstScanTarget} {host : ScanHost} {config : ScanConfig} {mem : ℕ → UInt8}

/-- The matches in a range, tested one position after the other. -/
def rangeAddresses (iconv : String → List UInt8 → Option (List UInt8)) (config : ScanConfig)
    (mem : ℕ → UInt8) (range : UInt64 × ℕ) : List UInt64 :=
  let p := plainScan iconv config
  (scanWindows p.stride p.size p.whole p.test range.2 (imageAt mem range.1.toNat range.2)).map
    fun off => range.1 + UInt64.ofNat off

def chunkedAddresses (iconv : String → List UInt8 → Option (List UInt8)) (config : ScanConfig)
    (mem : ℕ → UInt8) (owned : ℕ) (range : UInt64 × ℕ) : List UInt64 :=
  let p := plainScan iconv config
  ((strideOffsets range.2 owned).flatMap fun o =>
    (scanWindows p.stride p.size p.whole p.test (ownedAt owned range.2 o)
      (((imageAt mem range.1.toNat range.2).drop o).take
        (readLenAt owned (p.size - 1) range.2 o))).map (o + ·)).map
    fun off => range.1 + UInt64.ofNat off

theorem readLenAt_le (owned overlap span o : ℕ) (ho : o ≤ span) :
    o + readLenAt owned overlap span o ≤ span := by
  rw [readLenAt, ownedAt]
  omega

theorem chunk_read {range : UInt64 × ℕ} (hread : ReadsRange target mem range)
    (hfit : range.1.toNat + range.2 ≤ sizeMax + 1) (owned overlap : ℕ) {o : ℕ} (ho : o < range.2) :
    target.read (range.1 + UInt64.ofNat o) (readLenAt owned overlap range.2 o) =
      ((imageAt mem range.1.toNat range.2).drop o).take (readLenAt owned overlap range.2 o) := by
  have hle := readLenAt_le owned overlap range.2 o (by omega)
  have hadd : (range.1 + UInt64.ofNat o).toNat = range.1.toNat + o := by
    rw [sizeMax] at hfit
    rw [UInt64.toNat_add, UInt64.toNat_ofNat_of_lt' (by rw [UInt64.size]; omega)]
    exact Nat.mod_eq_of_lt (by omega)
  rw [imageAt_window mem hle, hread _ _ ?_ (by rw [hadd]; omega), hadd]
  rw [UInt64.le_iff_toNat_le, hadd]
  omega

theorem chunkRows_addresses {range : UInt64 × ℕ} (hread : ReadsRange target mem range)
    (hfit : range.1.toNat + range.2 ≤ sizeMax + 1) {owned : ℕ} (ho : 0 < owned) :
    ((chunksOf owned ((plainScan iconv config).size - 1) range).flatMap
        (chunkRows iconv target config)).map ScanRow.address =
      chunkedAddresses iconv config mem owned range := by
  rw [chunksOf, List.flatMap_map, List.map_flatMap, chunkedAddresses, List.map_flatMap]
  refine List.flatMap_congr fun o hmem => ?_
  have hlt := ((mem_strideOffsets ho).mp hmem).2
  rw [chunkRows, chunk_read hread hfit _ _ hlt, plainHits, List.map_map, List.map_map, List.map_map]
  refine List.map_congr_left fun off _ => ?_
  simp only [Function.comp_apply, hitRow]
  have hoff : (plainHit config ((((imageAt mem range.1.toNat range.2).drop o).take
      (readLenAt owned ((plainScan iconv config).size - 1) range.2 o)).drop off |>.take
      (plainScan iconv config).size) off).offset = off := by
    rw [plainHit]
    split <;> rfl
  rw [hoff, UInt64.ofNat_add, UInt64.add_assoc]

theorem chunkRows_length {range : UInt64 × ℕ} (hread : ReadsRange target mem range)
    (hfit : range.1.toNat + range.2 ≤ sizeMax + 1) {owned : ℕ} (ho : 0 < owned) :
    ((chunksOf owned ((plainScan iconv config).size - 1) range).flatMap
        (chunkRows iconv target config)).length ≤ range.2 := by
  have hsize := @plainScan_size_pos iconv config
  have hstride := @plainScan_stride_pos iconv config
  have hchunk : ∀ c ∈ chunksOf owned ((plainScan iconv config).size - 1) range,
      (chunkRows iconv target config c).length ≤ c.owned := by
    intro c hc
    obtain ⟨o, hmem, rfl⟩ := List.mem_map.mp hc
    have hlt := ((mem_strideOffsets ho).mp hmem).2
    rw [chunkRows, List.length_map, plainHits, List.length_map, scanWindows]
    refine le_trans (List.length_filter_le _ _) (le_trans (strideOffsets_length_le _ hstride) ?_)
    rw [chunk_read hread hfit _ _ hlt, List.length_take, List.length_drop, imageAt_length,
      readLenAt]
    dsimp only
    split <;> omega
  have hsum : ∀ cs : List Chunk, (∀ c ∈ cs, (chunkRows iconv target config c).length ≤ c.owned) →
      (cs.flatMap (chunkRows iconv target config)).length ≤ (cs.map Chunk.owned).sum := by
    intro cs hcs
    rw [List.length_flatMap]
    exact List.sum_le_sum fun c hc => hcs c hc
  refine le_trans (hsum _ hchunk) (le_of_eq ?_)
  rw [chunksOf, List.map_map]
  exact ownedAt_sum ho range.2

theorem runFirstScan_ranges (h : PlainConfig iconv host.simd config) {disk : Disk}
    {resultDir : String} (hdir : NewScanDir disk resultDir) (hthreads : 1 ≤ host.threadCount)
    {ranges : List (UInt64 × ℕ)} (hread : ∀ range ∈ ranges, ReadsRange target mem range)
    (hfit : ∀ range ∈ ranges, range.1.toNat + range.2 ≤ sizeMax + 1)
    (htotal : (ranges.map Prod.snd).sum ≤ sizeMax) {owned : ℕ} (ho : 0 < owned)
    {chunks : List Chunk}
    (hchunks : chunks = ranges.flatMap (chunksOf owned ((plainScan iconv config).size - 1))) :
    (runFirstScan iconv lua target host config disk resultDir chunks).1.addresses
        (runFirstScan iconv lua target host config disk resultDir chunks).2 =
      ranges.flatMap (chunkedAddresses iconv config mem owned) := by
  have hrows : chunks.flatMap (chunkRows iconv target config) = ranges.flatMap fun range =>
      (chunksOf owned ((plainScan iconv config).size - 1) range).flatMap
        (chunkRows iconv target config) := by
    rw [hchunks, List.flatMap_assoc]
  have hlen : (chunks.flatMap (chunkRows iconv target config)).length ≤ sizeMax := by
    rw [hrows, List.length_flatMap]
    refine le_trans (List.sum_le_sum fun range hrange => ?_) htotal
    exact chunkRows_length (hread range hrange) (hfit range hrange) ho
  -- a search wider than any buffer has no rows, and no rows are of any size
  have hsized : ∃ s, RowsOfSize (config.valueType = .all) s
      (chunks.flatMap (chunkRows iconv target config)) ∧ s ≤ sizeMax := by
    have hs := @chunkRows_sized iconv target config chunks
    by_cases hle : (plainScan iconv config).size ≤ sizeMax
    · exact ⟨_, hs, hle⟩
    · have hall : config.valueType ≠ .all := by
        intro hall
        rw [plainScan_size_all hall] at hle
        exact hle (by decide)
      have hnone : chunks.flatMap (chunkRows iconv target config) = [] := by
        rw [hrows, List.flatMap_eq_nil_iff]
        intro range hrange
        rw [List.flatMap_eq_nil_iff]
        intro c hc
        obtain ⟨o, hmem, rfl⟩ := List.mem_map.mp hc
        have hlt := ((mem_strideOffsets ho).mp hmem).2
        have hsmall : range.2 ≤ sizeMax :=
          le_trans (List.single_le_sum (by simp) _ (List.mem_map_of_mem hrange)) htotal
        rw [chunkRows, chunk_read (hread range hrange) (hfit range hrange) _ _ hlt, plainHits,
          plainScan_whole hall, scanWindows_short (plainScan_stride_pos config)]
        · rfl
        · rw [List.length_take, List.length_drop, imageAt_length]
          omega
      rw [hnone]
      exact ⟨1, ⟨Nat.one_pos, by simp, by simp, fun h => absurd (of_decide_eq_true h) hall⟩,
        by decide⟩
  obtain ⟨s, hs, hmax⟩ := hsized
  rw [runFirstScan_addresses h hdir hthreads hs hmax hlen, hrows, List.map_flatMap]
  exact List.flatMap_congr fun range hrange =>
    chunkRows_addresses (hread range hrange) (hfit range hrange) ho

theorem chunkedAddresses_eq {owned : ℕ} (ho : 0 < owned)
    (hdvd : (plainScan iconv config).stride ∣ owned) (range : UInt64 × ℕ) :
    chunkedAddresses iconv config mem owned range = rangeAddresses iconv config mem range := by
  have := @chunked_scan UInt8 (plainScan iconv config).stride (plainScan iconv config).size owned
    (plainScan iconv config).whole (plainScan iconv config).test (plainScan_size_pos config)
    (plainScan_stride_pos config) hdvd ho (imageAt mem range.1.toNat range.2)
  rw [imageAt_length] at this
  rw [chunkedAddresses, rangeAddresses, this]

theorem mem_scanWindows_lt {α : Type*} {stride size emit off : ℕ} {whole : Bool}
    {test : List α → Bool} {buf : List α} (hs : 0 < stride) (hsize : 0 < size)
    (h : off ∈ scanWindows stride size whole test emit buf) : stride ∣ off ∧ off < buf.length := by
  rw [scanWindows, List.mem_filter, mem_strideOffsets hs] at h
  obtain ⟨⟨hdvd, hlt⟩, -⟩ := h
  refine ⟨hdvd, ?_⟩
  split at hlt <;> omega

theorem mem_rangeAddresses {range : UInt64 × ℕ} (hfit : range.1.toNat + range.2 ≤ sizeMax + 1)
    {a : UInt64} (h : a ∈ rangeAddresses iconv config mem range) :
    ∃ off, (plainScan iconv config).stride ∣ off ∧ off < range.2 ∧ a.toNat = range.1.toNat + off := by
  obtain ⟨off, hoff, rfl⟩ := List.mem_map.mp h
  obtain ⟨hdvd, hlt⟩ := mem_scanWindows_lt (plainScan_stride_pos config) (plainScan_size_pos config)
    hoff
  rw [imageAt_length] at hlt
  rw [sizeMax] at hfit
  refine ⟨off, hdvd, hlt, ?_⟩
  rw [UInt64.toNat_add, UInt64.toNat_ofNat_of_lt' (by rw [UInt64.size]; omega)]
  exact Nat.mod_eq_of_lt (by omega)

theorem rangeAddresses_sorted {range : UInt64 × ℕ} (hfit : range.1.toNat + range.2 ≤ sizeMax + 1) :
    (rangeAddresses iconv config mem range).Pairwise (· < ·) := by
  rw [rangeAddresses, List.pairwise_map]
  have hsorted : (scanWindows (plainScan iconv config).stride (plainScan iconv config).size
      (plainScan iconv config).whole (plainScan iconv config).test range.2
      (imageAt mem range.1.toNat range.2)).Pairwise (· < ·) :=
    (strideOffsets_sorted _ (plainScan_stride_pos config)).filter _
  refine hsorted.imp_of_mem fun {i j} hi hj hlt => ?_
  have hi := (mem_scanWindows_lt (plainScan_stride_pos config) (plainScan_size_pos config) hi).2
  have hj := (mem_scanWindows_lt (plainScan_stride_pos config) (plainScan_size_pos config) hj).2
  rw [imageAt_length] at hi hj
  rw [sizeMax] at hfit
  rw [UInt64.lt_iff_toNat_lt, UInt64.toNat_add, UInt64.toNat_add,
    UInt64.toNat_ofNat_of_lt' (by rw [UInt64.size]; omega),
    UInt64.toNat_ofNat_of_lt' (by rw [UInt64.size]; omega), Nat.mod_eq_of_lt (by omega),
    Nat.mod_eq_of_lt (by omega)]
  omega

def regionAddresses (iconv : String → List UInt8 → Option (List UInt8)) (config : ScanConfig)
    (mem : ℕ → UInt8) (regions : List MemoryRegion) : List UInt64 :=
  regions.flatMap fun region => rangeAddresses iconv config mem (region.base, region.size)

theorem regionAddresses_nodup {regions : List MemoryRegion}
    (hd : regions.Pairwise MemoryRegion.Disjoint)
    (hfit : ∀ region ∈ regions, region.base.toNat + region.size ≤ sizeMax + 1) :
    (regionAddresses iconv config mem regions).Nodup := by
  rw [regionAddresses, List.nodup_flatMap]
  refine ⟨fun region hregion => (rangeAddresses_sorted (hfit region hregion)).imp fun h heq => ?_,
    hd.imp_of_mem fun {r r'} hr hr' hdis a ha ha' => ?_⟩
  · exact absurd h (heq ▸ UInt64.lt_irrefl _)
  · obtain ⟨off, -, hlt, hoff⟩ := mem_rangeAddresses (hfit r hr) ha
    obtain ⟨off', -, hlt', hoff'⟩ := mem_rangeAddresses (hfit r' hr') ha'
    rw [MemoryRegion.Disjoint] at hdis
    dsimp only at hlt hlt' hoff hoff'
    omega

/-! ### The scan -/

theorem ownedLen_pos (host : ScanHost) (config : ScanConfig) : 0 < ownedLen host config := by
  rw [ownedLen]
  split <;> omega

/-- Only UTF-16 texts step other than their chunks. -/
theorem stride_dvd_ownedLen (host : ScanHost) (h : config.valueType ≠ .unicodeString) :
    (plainScan iconv config).stride ∣ ownedLen host config := by
  have halign : max 1 config.alignment ∣ ownedLen host config := by
    rw [ownedLen]
    split
    · exact Nat.dvd_refl _
    · exact Nat.dvd_mul_left _ _
  rw [plainScan]
  split <;> dsimp only <;> first
    | exact halign
    | exact Nat.one_dvd _
    | exact absurd ‹_› h

theorem buildChunks_eq {skip : Bool} {regions : List MemoryRegion}
    {f : MemoryRegion → List (UInt64 × ℕ)} (h : ∀ r ∈ regions, scanRanges target skip r = .ok (f r))
    (owned overlap : ℕ) :
    buildChunks target skip owned overlap regions =
      .ok ((regions.flatMap f).flatMap (chunksOf owned overlap)) := by
  induction regions with
  | nil => rfl
  | cons r regions ih =>
    rw [buildChunks, h r List.mem_cons_self, ih fun r' hr' => h r' (List.mem_cons_of_mem _ hr'),
      List.flatMap_cons, List.flatMap_append]
    rfl

theorem emptyFirstScan_addresses (hw : config.pointerWidth = 0 ∨ config.pointerWidth = 4 ∨
      config.pointerWidth = 8) {disk : Disk} {resultDir : String}
    (hdir : NewScanDir disk resultDir) (all : Bool) :
    (emptyFirstScan config disk resultDir all).1.addresses
      (emptyFirstScan config disk resultDir all).2 = [] := by
  have hcreate : openDir disk (resultsDir resultDir) false
      = create (resultsDir resultDir) false {} := by
    rw [openDir, hdir.results]
    rfl
  obtain ⟨hformat, -, -⟩ := written_setDataFormat (written_create (resultsDir resultDir) false 8)
    config.byteOrder hw
  have hcount : (emptyFirstScan config disk resultDir all).1.count = 0 := by
    rw [emptyFirstScan, hcreate]
    cases all
    · exact (finished_finalize hformat ⟨by decide, by simp, by simp, fun h => by cases h⟩
        (Nat.zero_le _)).count
    · exact (finished_finalize (written_enableAllTypeCandidates hformat)
        ⟨by decide, by simp, by simp, fun _ => ⟨rfl, by simp⟩⟩ (Nat.zero_le _)).count
  rw [addresses, hcount]
  rfl

theorem chunkedAddresses_empty {owned overlap : ℕ} {range : UInt64 × ℕ}
    (h : chunksOf owned overlap range = []) : chunkedAddresses iconv config mem owned range = [] := by
  rw [chunksOf, List.map_eq_nil_iff] at h
  rw [chunkedAddresses, h]
  rfl

theorem firstScan_ranges {requested : ScanConfig} {plan : FirstPlan} {size : ℕ}
    (hplan : firstScanPlan iconv target requested = .ok plan)
    (hsize : valueSizeForConfig iconv plan.config = .ok size)
    (h : PlainConfig iconv host.simd plan.config) {disk : Disk} {resultDir : String}
    (hdir : NewScanDir disk resultDir) (hthreads : 1 ≤ host.threadCount)
    {f : MemoryRegion → List (UInt64 × ℕ)}
    (hranges : ∀ r ∈ plan.regions,
      scanRanges target (skipNonResident iconv lua host plan.config size) r = .ok (f r))
    (hread : ∀ range ∈ plan.regions.flatMap f, ReadsRange target mem range)
    (hfit : ∀ range ∈ plan.regions.flatMap f, range.1.toNat + range.2 ≤ sizeMax + 1)
    (htotal : ((plan.regions.flatMap f).map Prod.snd).sum ≤ sizeMax) :
    ∃ r disk', firstScan iconv lua target host disk resultDir requested = .ok (r, disk') ∧
      r.addresses disk' = (plan.regions.flatMap f).flatMap
        (chunkedAddresses iconv plan.config mem (ownedLen host plan.config)) := by
  have hplanned := firstScanPlan_ok hplan
  have hpointer : plan.config.valueType = .pointer →
      plan.config.pointerWidth = 4 ∨ plan.config.pointerWidth = 8 := by
    intro hp
    have h0 := hplanned.config.pointer hp
    have hw := h.pointerWidth
    omega
  have hpos := valueSize_pos hsize hplanned.config.pointer
  have hp := plainScan_size hsize hpointer
  have ho := ownedLen_pos host plan.config
  have hbuild := buildChunks_eq hranges (ownedLen host plan.config) (size - 1)
  obtain ⟨ranges, hr⟩ : ∃ ranges, ranges = plan.regions.flatMap f := ⟨_, rfl⟩
  obtain ⟨chunks, hchunks⟩ : ∃ chunks, chunks = ranges.flatMap
    (chunksOf (ownedLen host plan.config) (size - 1)) := ⟨_, rfl⟩
  rw [← hr] at hread hfit htotal hbuild ⊢
  rw [← hchunks] at hbuild
  have hempty : chunks = [] → ranges.flatMap
      (chunkedAddresses iconv plan.config mem (ownedLen host plan.config)) = [] := by
    intro hnil
    rw [hchunks, List.flatMap_eq_nil_iff] at hnil
    rw [List.flatMap_eq_nil_iff]
    exact fun range hrange => chunkedAddresses_empty (hnil range hrange)
  suffices hout : ∃ out, firstScan iconv lua target host disk resultDir requested = .ok out ∧
      out.1.addresses out.2 = ranges.flatMap
        (chunkedAddresses iconv plan.config mem (ownedLen host plan.config)) by
    obtain ⟨out, hout, haddr⟩ := hout
    exact ⟨out.1, out.2, hout, haddr⟩
  rw [firstScan, hplan]
  simp only [bind, Except.bind]
  split
  · rename_i h0
    have hnone : plan.regions = [] := by
      cases hreg : plan.regions with
      | nil => rfl
      | cons c rest =>
        obtain ⟨r, -, hcl⟩ := hplanned.clipped (show c ∈ plan.regions by rw [hreg]; simp)
        have hsum := hplanned.total
        have := hcl.pos
        rw [h0, hreg, List.map_cons, List.sum_cons] at hsum
        omega
    refine ⟨emptyFirstScan plan.config disk resultDir (plan.config.valueType = .all), rfl, ?_⟩
    rw [emptyFirstScan_addresses h.pointerWidth hdir, hempty]
    rw [hchunks, hr, hnone]
    rfl
  · rw [hsize]
    simp only [Nat.max_eq_right hpos, hbuild]
    split
    · rename_i hzero
      refine ⟨emptyFirstScan plan.config disk resultDir false, rfl, ?_⟩
      rw [emptyFirstScan_addresses h.pointerWidth hdir, hempty]
      refine List.eq_nil_iff_forall_not_mem.mpr fun c hc => ?_
      have hle : c.owned ≤ ownedBytes chunks :=
        List.single_le_sum (by simp) _ (List.mem_map_of_mem hc)
      rw [hchunks] at hc
      obtain ⟨range, -, hc⟩ := List.mem_flatMap.mp hc
      obtain ⟨o, hmem, rfl⟩ := List.mem_map.mp hc
      have hlt := ((mem_strideOffsets ho).mp hmem).2
      rw [hzero] at hle
      simp only [ownedAt] at hle
      omega
    · refine ⟨runFirstScan iconv lua target host plan.config disk resultDir chunks, rfl, ?_⟩
      exact runFirstScan_ranges h hdir hthreads hread hfit htotal ho (by rw [hchunks, hp])

/-! ### UTF-16 texts -/

/-- The bytes a UTF-16 scan looks for. -/
def unicodeNeedle (iconv : String → List UInt8 → Option (List UInt8)) (config : ScanConfig) :
    List UInt8 :=
  (utf16Bytes iconv config.stringValue config.byteOrder).toOption.getD []

theorem plainScan_unicode (h : config.valueType = .unicodeString) :
    plainScan iconv config = (
      { stride := 2
        size := max 2 (unicodeNeedle iconv config).length
        test := fun w => !(unicodeNeedle iconv config).isEmpty
          && stringBytesMatch w (unicodeNeedle iconv config) (unicodeNeedle iconv config).length
            config.caseSensitive true config.byteOrder } : PlainScan) := by
  rw [plainScan, h]
  rfl

theorem stringBytesMatch_self {needle : List UInt8} (h : needle.length % 2 = 0)
    (caseSensitive : Bool) (order : ByteOrder) :
    stringBytesMatch needle needle needle.length caseSensitive true order = true := by
  cases caseSensitive
  · rw [stringBytesMatch, if_neg (by decide), if_pos rfl, if_neg (by simp [h]), List.all_eq_true]
    intro k _
    rw [unitMatches]
    simp
  · rw [stringBytesMatch, if_pos rfl, bytesEqual, beq_self_eq_true]

/-- What keeps a UTF-16 scan on its stride: chunks of whole units, or regions that only the
first chunk can hold a text in. -/
def KeepsUnits (iconv : String → List UInt8 → Option (List UInt8)) (host : ScanHost)
    (plan : FirstPlan) : Prop :=
  plan.config.valueType = .unicodeString →
    unicodeNeedle iconv plan.config = [] ∨ ownedLen host plan.config % 2 = 0 ∨
      ∀ region ∈ plan.regions,
        region.size < ownedLen host plan.config + (unicodeNeedle iconv plan.config).length

theorem chunkedAddresses_of_keepsUnits {plan : FirstPlan}
    (hkeeps : KeepsUnits iconv host plan) {region : MemoryRegion} (hregion : region ∈ plan.regions)
    (hpos : 0 < region.size) :
    chunkedAddresses iconv plan.config mem (ownedLen host plan.config) (region.base, region.size) =
      rangeAddresses iconv plan.config mem (region.base, region.size) := by
  have ho := ownedLen_pos host plan.config
  by_cases hu : plan.config.valueType = .unicodeString
  · have hp := @plainScan_unicode iconv plan.config hu
    rcases hkeeps hu with hnone | heven | hshort
    · rw [chunkedAddresses, rangeAddresses, hp]
      simp [scanWindows, hnone]
    · exact chunkedAddresses_eq ho (by rw [hp]; exact Nat.dvd_of_mod_eq_zero heven) _
    · have heq := @chunked_scan_short UInt8 (plainScan iconv plan.config).stride
        (plainScan iconv plan.config).size (ownedLen host plan.config)
        (plainScan iconv plan.config).test (plainScan_stride_pos plan.config) ho
        (imageAt mem region.base.toNat region.size) (by rw [imageAt_length]; exact hpos) (by
          have := hshort region hregion
          rw [imageAt_length, hp]
          dsimp only
          omega)
      rw [imageAt_length] at heq
      rw [chunkedAddresses, rangeAddresses, plainScan_whole (by rw [hu]; decide)]
      exact congrArg (List.map _) heq
  · exact chunkedAddresses_eq ho (stride_dvd_ownedLen host hu) _

theorem odd_chunk_match (hi : Utf16Iconv iconv) (hu : config.valueType = .unicodeString)
    (hne : unicodeNeedle iconv config ≠ []) {owned : ℕ} (ho : 0 < owned) {range : UInt64 × ℕ}
    (hlen : owned + (unicodeNeedle iconv config).length ≤ range.2)
    (hmem : imageAt mem (range.1.toNat + owned) (unicodeNeedle iconv config).length
      = unicodeNeedle iconv config) :
    range.1 + UInt64.ofNat owned ∈ chunkedAddresses iconv config mem owned range := by
  have hunits : (unicodeNeedle iconv config).length % 2 = 0 := utf16Needle_length hi _ _
  have hnpos := List.length_pos_iff.mpr hne
  have hp := @plainScan_unicode iconv config hu
  obtain ⟨needle, hneedle⟩ : ∃ n, n = unicodeNeedle iconv config := ⟨_, rfl⟩
  rw [← hneedle] at hne hlen hmem hunits hnpos hp
  have hmax : max 2 needle.length = needle.length := by omega
  rw [hmax] at hp
  rw [chunkedAddresses, hp]
  dsimp only
  refine List.mem_map.mpr ⟨owned, List.mem_flatMap.mpr ⟨owned, ?_, ?_⟩, rfl⟩
  · exact (mem_strideOffsets ho).mpr ⟨Nat.dvd_refl _, by omega⟩
  · refine List.mem_map.mpr ⟨0, ?_, Nat.add_zero _⟩
    have hread : needle.length ≤ readLenAt owned (needle.length - 1) range.2 owned := by
      rw [readLenAt, ownedAt]
      omega
    rw [scanWindows, List.mem_filter, mem_strideOffsets (by decide)]
    refine ⟨⟨Nat.dvd_zero 2, ?_⟩, ?_⟩
    · rw [if_pos rfl, List.length_take, List.length_drop, imageAt_length]
      omega
    · rw [List.drop_zero, List.take_take, Nat.min_eq_left hread, imageAt_window mem hlen, hmem,
        stringBytesMatch_self hunits]
      simp [hne]

theorem firstScan_regions {requested : ScanConfig} {plan : FirstPlan}
    (hplan : firstScanPlan iconv target requested = .ok plan) {size : ℕ}
    (hsize : valueSizeForConfig iconv plan.config = .ok size)
    (hp : PlainConfig iconv host.simd plan.config)
    (hthreads : 1 ≤ host.threadCount) (hskip : host.pagemapDisabled = true) {disk : Disk}
    {resultDir : String} (hdir : NewScanDir disk resultDir)
    (hread : ∀ region ∈ plan.regions, ReadsRange target mem (region.base, region.size)) :
    ∃ r disk', firstScan iconv lua target host disk resultDir requested = .ok (r, disk') ∧
      r.addresses disk' = plan.regions.flatMap fun region =>
        chunkedAddresses iconv plan.config mem (ownedLen host plan.config)
          (region.base, region.size) := by
  have hplanned := firstScanPlan_ok hplan
  have hnoskip : skipNonResident iconv lua host plan.config size = false := by
    rw [skipNonResident, hskip]
    rfl
  have hmap : plan.regions.flatMap (fun region => [(region.base, region.size)])
      = plan.regions.map fun region => (region.base, region.size) := by
    rw [List.map_eq_flatMap]
  have := @firstScan_ranges iconv σ lua target host mem requested plan size hplan
    hsize hp disk resultDir hdir hthreads (fun region => [(region.base, region.size)])
    (fun region _ => by rw [scanRanges, hnoskip]; rfl)
    (fun range hrange => by
      rw [hmap] at hrange
      obtain ⟨region, hregion, rfl⟩ := List.mem_map.mp hrange
      exact hread region hregion)
    (fun range hrange => by
      rw [hmap] at hrange
      obtain ⟨region, hregion, rfl⟩ := List.mem_map.mp hrange
      obtain ⟨r, -, hcl⟩ := hplanned.clipped hregion
      exact hcl.fits)
    (by
      rw [hmap, List.map_map]
      exact hplanned.total ▸ hplanned.max)
  rw [hmap, List.flatMap_map] at this
  exact this

theorem exists_imageAt (base : ℕ) (bytes : List UInt8) :
    ∃ mem : ℕ → UInt8, imageAt mem base bytes.length = bytes := by
  refine ⟨fun a => bytes.getD (a - base) 0, ?_⟩
  refine List.ext_getElem? fun i => ?_
  by_cases hi : i < bytes.length
  · rw [imageAt_getElem? _ _ hi, Nat.add_sub_cancel_left, List.getD_eq_getElem?_getD,
      List.getElem?_eq_getElem hi]
    rfl
  · rw [List.getElem?_eq_none (by simpa using hi), List.getElem?_eq_none (by simpa using hi)]

theorem odd_not_mem_regionAddresses (hu : config.valueType = .unicodeString)
    {regions : List MemoryRegion} (hdis : regions.Pairwise MemoryRegion.Disjoint)
    (hfit : ∀ region ∈ regions, region.base.toNat + region.size ≤ sizeMax + 1)
    {region : MemoryRegion} (hregion : region ∈ regions) {off : ℕ} (hlt : off < region.size)
    (hodd : off % 2 ≠ 0) :
    region.base + UInt64.ofNat off ∉ regionAddresses iconv config mem regions := by
  intro hfound
  obtain ⟨region', hregion', hfound⟩ := List.mem_flatMap.mp hfound
  obtain ⟨off', hdvd, hlt', hoff⟩ := mem_rangeAddresses (hfit region' hregion') hfound
  have hfit' := hfit region hregion
  rw [sizeMax] at hfit'
  rw [UInt64.toNat_add, UInt64.toNat_ofNat_of_lt' (by rw [UInt64.size]; omega),
    Nat.mod_eq_of_lt (by omega)] at hoff
  dsimp only at hlt' hoff
  have hsame : region' = region := by
    by_contra hdiff
    have := hdis.forall hregion' hregion hdiff
    rw [MemoryRegion.Disjoint] at this
    omega
  rw [hsame] at hoff
  rw [plainScan_unicode hu] at hdvd
  have heq : off' = off := by omega
  rw [heq] at hdvd
  exact hodd (Nat.mod_eq_zero_of_dvd hdvd)

/-- The exact condition under which a first scan is complete, whatever the memory holds. -/
theorem firstScan_complete_iff (hi : Utf16Iconv iconv) {requested : ScanConfig} {plan : FirstPlan}
    (hplan : firstScanPlan iconv target requested = .ok plan) {size : ℕ}
    (hsize : valueSizeForConfig iconv plan.config = .ok size)
    (hinexact : plan.config.valueType ≠ .float ∧ plan.config.valueType ≠ .double)
    (hcustom : plan.config.valueType ≠ .custom)
    (hdisjoint : target.regions.Pairwise MemoryRegion.Disjoint)
    (hthreads : 1 ≤ host.threadCount) (hskip : host.pagemapDisabled = true) {disk : Disk}
    {resultDir : String} (hdir : NewScanDir disk resultDir) :
    (∀ (mem : ℕ → UInt8) (read : UInt64 → ℕ → List UInt8),
      (∀ region ∈ plan.regions, ReadsRange { target with read } mem (region.base, region.size)) →
      ∃ r disk', firstScan iconv lua { target with read } host disk resultDir requested
          = .ok (r, disk') ∧
        r.addresses disk' = regionAddresses iconv plan.config mem plan.regions ∧
        (r.addresses disk').Nodup ∧
        ∀ region ∈ plan.regions,
          (rangeAddresses iconv plan.config mem (region.base, region.size)).Pairwise (· < ·)) ↔
      KeepsUnits iconv host plan := by
  have hplanned := firstScanPlan_ok hplan
  have hp : PlainConfig iconv host.simd plan.config :=
    ⟨hi, hplanned.terms, hplanned.config.pointerWidth, hcustom, fun h => absurd h hinexact.1,
      fun h => absurd h hinexact.2⟩
  have hclipped : ∀ region ∈ plan.regions,
      0 < region.size ∧ region.base.toNat + region.size ≤ sizeMax + 1 := fun region hregion => by
    obtain ⟨r, -, hcl⟩ := hplanned.clipped hregion
    exact ⟨hcl.pos, hcl.fits⟩
  have hdis : plan.regions.Pairwise MemoryRegion.Disjoint := by
    obtain ⟨from_, hsub, hall⟩ := hplanned.regions
    exact clipped_disjoint hall (hdisjoint.sublist hsub)
  refine ⟨fun hall hu => ?_, fun hkeeps mem read hread => ?_⟩
  · by_contra hbad
    rw [not_or, not_or] at hbad
    obtain ⟨hne, hodd, hlong⟩ := hbad
    push Not at hlong
    obtain ⟨region, hregion, hlong⟩ := hlong
    -- a memory whose second chunk begins with the text
    obtain ⟨mem, hmem⟩ := exists_imageAt (region.base.toNat + ownedLen host plan.config)
      (unicodeNeedle iconv plan.config)
    obtain ⟨read, hreads⟩ : ∃ read : UInt64 → ℕ → List UInt8, ∀ r ∈ plan.regions,
        ReadsRange { target with read } mem (r.base, r.size) :=
      ⟨fun a n => imageAt mem a.toNat n, fun _ _ _ _ _ _ => rfl⟩
    obtain ⟨r, disk', hok, haddr, -, -⟩ := hall mem read hreads
    obtain ⟨r', disk'', hok', haddr'⟩ := @firstScan_regions iconv σ lua { target with read } host
      mem requested plan hplan size hsize hp hthreads hskip disk resultDir hdir hreads
    rw [hok] at hok'
    cases hok'
    rw [haddr] at haddr'
    have hfound := @odd_chunk_match iconv plan.config mem hi hu hne _
      (ownedLen_pos host plan.config) (region.base, region.size) hlong hmem
    have hlt : ownedLen host plan.config < region.size := by
      have := List.length_pos_iff.mpr hne
      omega
    have hnot := @odd_not_mem_regionAddresses iconv plan.config mem hu plan.regions hdis
      (fun r hr => (hclipped r hr).2) region hregion _ hlt hodd
    rw [haddr'] at hnot
    refine hnot ?_
    exact List.mem_flatMap.mpr ⟨region, hregion, hfound⟩
  · obtain ⟨r, disk', hok, haddr⟩ := @firstScan_regions iconv σ lua { target with read } host
      mem requested plan hplan size hsize hp hthreads hskip disk resultDir hdir hread
    have heq : r.addresses disk' = regionAddresses iconv plan.config mem plan.regions := by
      rw [haddr, regionAddresses]
      exact List.flatMap_congr fun region hregion =>
        chunkedAddresses_of_keepsUnits hkeeps hregion (hclipped region hregion).1
    refine ⟨r, disk', hok, heq, ?_, fun region hregion =>
      rangeAddresses_sorted (hclipped region hregion).2⟩
    rw [heq]
    exact regionAddresses_nodup hdis fun r hr => (hclipped r hr).2

end Ranges

/-- `iconv` on ASCII text. -/
def asciiIconv (encoding : String) (text : List UInt8) : Option (List UInt8) :=
  if encoding = "UTF-16LE" then some (text.flatMap fun c => [c, 0])
  else if encoding = "UTF-16BE" then some (text.flatMap fun c => [0, c])
  else none

theorem asciiIconv_utf16 : Utf16Iconv asciiIconv := by
  have hlen : ∀ (f : UInt8 → List UInt8), (∀ c, (f c).length = 2) → ∀ text : List UInt8,
      (text.flatMap f).length = 2 * text.length := by
    intro f hf text
    induction text with
    | nil => rfl
    | cons c text ih =>
      rw [List.flatMap_cons, List.length_append, hf, ih, List.length_cons]
      omega
  refine ⟨fun text le be hle hbe => ?_, fun text encoding hmem bytes h => ?_⟩
  · cases hle
    cases hbe
    rw [hlen _ fun _ => rfl, hlen _ fun _ => rfl]
  · rcases List.mem_pair.mp hmem with rfl | rfl
    · cases h
      rw [hlen _ fun _ => rfl, Nat.mul_mod_right]
    · cases h
      rw [hlen _ fun _ => rfl, Nat.mul_mod_right]

def imageTarget (mem : ℕ → UInt8) (base : UInt64) (size : ℕ) : FirstScanTarget where
  regions := [{ base, size }]
  read a n := imageAt mem a.toNat n
  residentRanges base size := [(base, base + UInt64.ofNat size)]

theorem emptyDisk_new : NewScanDir (fun _ => {}) "/new" := ⟨by decide, rfl, fun _ => rfl⟩

def noFormula : FormulaEvaluator Unit := ⟨(), fun st _ _ _ => (none, st)⟩

/-- The integers of a small region, in six chunks and four workers. -/
theorem firstScan_complete_iff_int32 :
    let mem : ℕ → UInt8 := fun a => if a = 0x10008 ∨ a = 0x1002a ∨ a = 0x10034 then 7 else 0
    ∃ r disk', firstScan asciiIconv noFormula (imageTarget mem 0x10000 64)
        { chunkBytes := 13, pagemapDisabled := true, threadCount := 4 } (fun _ => {}) "/new"
        { intValue := 7 } = .ok (r, disk') ∧
      r.addresses disk' = [0x10008, 0x10034] ∧ (r.addresses disk').Nodup := by
  intro mem
  have hplan : firstScanPlan asciiIconv (imageTarget mem 0x10000 64) { intValue := 7 }
      = .ok ⟨withTargetFormat {} { intValue := 7 }, [{ base := 0x10000, size := 64 }], 64⟩ :=
    firstScanPlan_eq rfl rfl rfl (by decide) rfl
  have hiff := @firstScan_complete_iff asciiIconv Unit noFormula (imageTarget mem 0x10000 64)
    { chunkBytes := 13, pagemapDisabled := true, threadCount := 4 } asciiIconv_utf16
    { intValue := 7 } _ hplan 4 rfl
    (by simp [withTargetFormat]) (by simp [withTargetFormat]) (List.pairwise_singleton _ _)
    (by decide) rfl (fun _ => {}) "/new" emptyDisk_new
  obtain ⟨r, disk', hok, haddr, hnodup, -⟩ := hiff.mpr (fun h => by cases h) mem
    (fun a n => imageAt mem a.toNat n) (fun _ _ _ _ _ _ => rfl)
  refine ⟨r, disk', hok, haddr.trans ?_, hnodup⟩
  decide

/-- A UTF-16 text at the start of the second chunk, which is an odd address: the scan reports it
although no position of the region's stride is there. -/
theorem firstScan_finds_odd_address :
    let mem : ℕ → UInt8 := fun a => if a = 0x103ff then 0x41 else 0
    let target := imageTarget mem 0x10000 1040
    let host : ScanHost := { chunkBytes := 1024, pagemapDisabled := true }
    let requested : ScanConfig :=
      { valueType := .unicodeString, stringValue := [0x41], alignment := 3 }
    ∃ plan r disk', firstScanPlan asciiIconv target requested = .ok plan ∧
      (∀ region ∈ plan.regions, ReadsRange target mem (region.base, region.size)) ∧
      firstScan asciiIconv noFormula target host (fun _ => {}) "/new" requested = .ok (r, disk') ∧
      0x103ff ∈ r.addresses disk' ∧
      0x103ff ∉ regionAddresses asciiIconv plan.config mem plan.regions := by
  intro mem target host requested
  have hp : PlainConfig asciiIconv host.simd (withTargetFormat {} requested) :=
    ⟨asciiIconv_utf16, fun _ h => (by cases h), Or.inr (Or.inr rfl), fun h => (by cases h),
      fun h => (by cases h), fun h => (by cases h)⟩
  have hplan : firstScanPlan asciiIconv target requested
      = .ok ⟨withTargetFormat {} requested, [{ base := 0x10000, size := 1040 }], 1040⟩ :=
    firstScanPlan_eq rfl rfl rfl (by decide) rfl
  have hsize : valueSizeForConfig asciiIconv (withTargetFormat {} requested) = .ok 2 := by
    decide
  have hneedle : unicodeNeedle asciiIconv (withTargetFormat {} requested) = [0x41, 0] := by
    decide
  have howned : ownedLen host (withTargetFormat {} requested) = 1023 := by decide
  obtain ⟨r, disk', hok, haddr⟩ := @firstScan_regions asciiIconv Unit noFormula target host mem
    requested _ hplan 2 hsize hp
    (by decide) rfl (fun _ => {}) "/new" emptyDisk_new (fun _ _ _ _ _ _ => rfl)
  refine ⟨_, r, disk', hplan, fun _ _ _ _ _ _ => rfl, hok, ?_, ?_⟩
  · have hfound := @odd_chunk_match asciiIconv (withTargetFormat {} requested) mem asciiIconv_utf16
      rfl (by rw [hneedle]; simp) 1023 (by decide) (0x10000, 1040) (by rw [hneedle]; decide)
      (by rw [hneedle]; decide)
    rw [haddr, howned]
    exact List.mem_flatMap.mpr ⟨_, List.mem_singleton_self _, hfound⟩
  · exact @odd_not_mem_regionAddresses asciiIconv (withTargetFormat {} requested) mem rfl
      [{ base := 0x10000, size := 1040 }] (List.pairwise_singleton _ _) (by decide) _
      (List.mem_singleton_self _) 1023 (by decide) (by decide)
end CheatEngine
