import CheatEngineLinux.Core.Expression
import CheatEngineLinux.Library.Spans
import CheatEngineLinux.Scanner.PointerMap
import CheatEngineLinux.Scanner.ResidentPages

/-!
# Building the pointer map

`buildPointerMap` (`scanner/pointer_scanner.cpp`) reads the readable memory of the target once, in
windows of 64 MB, and records every slot whose value lies in readable memory.

* `readable_iff` — **PROVED**: the merged spans hold the addresses of the readable regions;
* `spanEntries_eq` — **PROVED**: the windows of a span find the slots of the span;
* `mem_regionEntries` — **PROVED**: so do the resident runs of a region;
* `buildPointerMap_complete` — **PROVED**: the map has one entry for each such slot and no other.
-/

namespace CheatEngine

open StridedScan

/-! ### The code -/

/-- What `buildPointerMap` reads of a `PointerScanConfig`. -/
structure PointerMapConfig where
  alignedOnly : Bool := true
  maxMapEntries : ℕ := 2 ^ 28
  deriving Repr, DecidableEq

structure PointerTarget extends FirstScanTarget where
  pointerWidth : UInt64 → ℕ
  byteOrder : UInt64 → ByteOrder
  /-- `mixedCode`, or a Wine runtime -/
  machinePerRegion : Bool := false
  modules : List ModuleInfo := []

/-- `ReadableSpans`, before they are sorted and merged. -/
def readableSpans (regions : List MemoryRegion) : List Spans.Span :=
  regions.filterMap fun r =>
    if !r.read || r.size = 0 then none
    else
      some ⟨r.base.toNat,
        if r.size - 1 > sizeMax - r.base.toNat then sizeMax else r.base.toNat + (r.size - 1)⟩

/-- `ReadableSpans::contains` -/
def readable (regions : List MemoryRegion) (value : UInt64) : Bool :=
  Spans.contains (Spans.merged sizeMax (readableSpans regions)) value.toNat

def knownMachine (width : ℕ) (order : ByteOrder) : Bool :=
  (width = 4 || width = 8) && order ≠ .unknown

def PointerTarget.machineIn (target : PointerTarget) (region : MemoryRegion) : ℕ × ByteOrder :=
  if target.machinePerRegion then (target.pointerWidth region.base, target.byteOrder region.base)
  else (target.pointerWidth 0, target.byteOrder 0)

def PointerMapConfig.ptrStep (config : PointerMapConfig) (ptrSize : ℕ) : ℕ :=
  if config.alignedOnly then ptrSize else 1

structure ReadSpan where
  base : UInt64
  size : ℕ
  ptrSize : ℕ
  order : ByteOrder
  deriving Repr, DecidableEq

def residentSpan (region : MemoryRegion) (step : UInt64) (ptrSize : ℕ) (order : ByteOrder)
    (range : UInt64 × UInt64) : Option ReadSpan :=
  let start := max range.1 region.base
  let stop := min range.2 (region.base + UInt64.ofNat region.size)
  let start := start + (step - (start - region.base) % step) % step
  if stop ≤ start then none else some ⟨start, (stop - start).toNat, ptrSize, order⟩

def readSpans (target : PointerTarget) (config : PointerMapConfig) (skip : Bool)
    (region : MemoryRegion) : List ReadSpan :=
  if !region.read || region.size = 0 then []
  else
    let (ptrSize, order) := target.machineIn region
    if !knownMachine ptrSize order then []
    else if skip && skipsRegion region then
      (target.residentRanges region.base region.size).filterMap
        (residentSpan region (UInt64.ofNat (config.ptrStep ptrSize)) ptrSize order)
    else [⟨region.base, region.size, ptrSize, order⟩]

def kPtrReadWindow : ℕ := 64 * 1024 * 1024

def windowLen (step : ℕ) : ℕ := max step (kPtrReadWindow / step * step)

def slotEntry (isReadable : UInt64 → Bool) (order : ByteOrder) (bytes : List UInt8) (slot : UInt64) :
    Option Entry :=
  match Expression.decodeTargetUnsigned bytes order with
  | some val => if isReadable val then some ⟨val, slot⟩ else none
  | none => none

/-- What one window adds.  `windowStart` is a number: no region is within a window of `2^64`
bytes. -/
def windowEntries (target : PointerTarget) (isReadable : UInt64 → Bool) (step : ℕ) (span : ReadSpan)
    (windowStart : ℕ) : List Entry :=
  let want := min (windowLen step + span.ptrSize - 1) (span.size - windowStart)
  let winBase := span.base + UInt64.ofNat windowStart
  let buf := target.read winBase want
  if buf.length ≥ span.ptrSize then
    (strideOffsets (min (windowLen step) (buf.length - span.ptrSize + 1)) step).filterMap fun offset =>
      slotEntry isReadable span.order ((buf.drop offset).take span.ptrSize)
        (winBase + UInt64.ofNat offset)
  else []

/-- Entries up to the limit; the flag is `full`. -/
def pushEntries (maxEntries : ℕ) : List Entry × Bool → List Entry → List Entry × Bool
  | state, [] => state
  | (entries, full), e :: rest =>
    if entries.length ≥ maxEntries then (entries, true)
    else pushEntries maxEntries (entries ++ [e], full) rest

def scanWindow (target : PointerTarget) (isReadable : UInt64 → Bool) (maxEntries step : ℕ)
    (span : ReadSpan) (state : List Entry × Bool) (windowStart : ℕ) : List Entry × Bool :=
  if state.2 then state
  else pushEntries maxEntries state (windowEntries target isReadable step span windowStart)

def scanSpan (target : PointerTarget) (config : PointerMapConfig) (isReadable : UInt64 → Bool)
    (maxEntries : ℕ) (state : List Entry × Bool) (span : ReadSpan) : List Entry × Bool :=
  let step := config.ptrStep span.ptrSize
  (strideOffsets span.size (windowLen step)).foldl
    (scanWindow target isReadable maxEntries step span) state

def PointerMapConfig.maxEntries (config : PointerMapConfig) : ℕ :=
  min config.maxMapEntries (2 ^ 32 - 1)

/-- The spans of all regions; untouched pages are left out where a zero is no pointer. -/
def allSpans (target : PointerTarget) (config : PointerMapConfig) : List ReadSpan :=
  let skip := config.alignedOnly && !readable target.regions 0
  target.regions.flatMap (readSpans target config skip)

def scanMemory (target : PointerTarget) (config : PointerMapConfig) : List Entry × Bool :=
  (allSpans target config).foldl
    (scanSpan target config (readable target.regions) config.maxEntries) ([], false)

/-! ### The limit -/

section Limit

variable {maxEntries : ℕ}

theorem pushEntries_eq (entries rest : List Entry) (full : Bool) (h : entries.length ≤ maxEntries) :
    pushEntries maxEntries (entries, full) rest =
      ((entries ++ rest).take maxEntries, full || decide (maxEntries < (entries ++ rest).length)) := by
  induction rest generalizing entries with
  | nil =>
    rw [pushEntries, List.append_nil, List.take_of_length_le h, decide_eq_false (by omega),
      Bool.or_false]
  | cons e rest ih =>
    rw [pushEntries]
    split
    · have hfull : entries.length = maxEntries := by omega
      rw [List.take_append_of_le_length (by omega), List.take_of_length_le h,
        decide_eq_true (by simp; omega), Bool.or_true]
    · rw [ih _ (by simp; omega), List.append_assoc, List.singleton_append]

/-- What a scan holds after it has seen the entries `all`. -/
def seen (maxEntries : ℕ) (all : List Entry) : List Entry × Bool :=
  (all.take maxEntries, decide (maxEntries < all.length))

variable {target : PointerTarget} {config : PointerMapConfig} {isReadable : UInt64 → Bool}

theorem scanWindow_seen (step : ℕ) (span : ReadSpan) (all : List Entry) (windowStart : ℕ) :
    scanWindow target isReadable maxEntries step span (seen maxEntries all) windowStart =
      seen maxEntries (all ++ windowEntries target isReadable step span windowStart) := by
  rw [scanWindow, seen, seen]
  split
  · rename_i hfull
    have hlt : maxEntries < all.length := of_decide_eq_true hfull
    rw [List.take_append_of_le_length (le_of_lt hlt), decide_eq_true hlt,
      decide_eq_true (by simp; omega)]
  · rename_i hroom
    have hle : all.length ≤ maxEntries := by simpa using hroom
    rw [List.take_of_length_le hle, pushEntries_eq _ _ _ hle, decide_eq_false (by omega),
      Bool.false_or]

def spanEntries (target : PointerTarget) (config : PointerMapConfig) (isReadable : UInt64 → Bool)
    (span : ReadSpan) : List Entry :=
  (strideOffsets span.size (windowLen (config.ptrStep span.ptrSize))).flatMap
    (windowEntries target isReadable (config.ptrStep span.ptrSize) span)

theorem foldl_seen {α : Type} (f : α → List Entry) {g : List Entry × Bool → α → List Entry × Bool}
    (h : ∀ all a, g (seen maxEntries all) a = seen maxEntries (all ++ f a)) (l : List α)
    (all : List Entry) :
    l.foldl g (seen maxEntries all) = seen maxEntries (all ++ l.flatMap f) := by
  induction l generalizing all with
  | nil => simp
  | cons a l ih => rw [List.foldl_cons, h, ih, List.flatMap_cons, List.append_assoc]

theorem scanSpan_seen (all : List Entry) (span : ReadSpan) :
    scanSpan target config isReadable maxEntries (seen maxEntries all) span =
      seen maxEntries (all ++ spanEntries target config isReadable span) :=
  foldl_seen _ (scanWindow_seen _ span) _ all

/-- Every entry of the target's memory, in the order it is read. -/
def allEntries (target : PointerTarget) (config : PointerMapConfig) : List Entry :=
  (allSpans target config).flatMap (spanEntries target config (readable target.regions))

theorem scanMemory_eq (target : PointerTarget) (config : PointerMapConfig) :
    scanMemory target config = seen config.maxEntries (allEntries target config) := by
  have hstart : ([], false) = seen config.maxEntries [] := by simp [seen]
  rw [scanMemory, hstart, foldl_seen _ scanSpan_seen _ [], List.nil_append, allEntries]

theorem scanMemory_length_le (target : PointerTarget) (config : PointerMapConfig) :
    (scanMemory target config).1.length ≤ 2 ^ 32 := by
  rw [scanMemory_eq, seen, List.length_take, PointerMapConfig.maxEntries]
  omega

end Limit

/-- `buildPointerMap`, without a GPU and not cancelled. -/
def buildPointerMap (target : PointerTarget) (config : PointerMapConfig) : Except String PointerMap :=
  if !knownMachine (target.pointerWidth 0) (target.byteOrder 0) then
    .error "Pointer scanning requires a known target pointer width and byte order"
  else
    let scanned := scanMemory target config
    .ok (PointerMap.setEntries scanned.1 target.modules scanned.2 (scanMemory_length_le target config))

/-! ### Readable addresses -/

theorem readable_iff {regions : List MemoryRegion}
    (hfit : ∀ r ∈ regions, r.base.toNat + r.size ≤ 2 ^ 64) (value : UInt64) :
    readable regions value = true ↔
      ∃ r ∈ regions, r.read = true ∧ r.base.toNat ≤ value.toNat ∧
        value.toNat < r.base.toNat + r.size := by
  have hspan : ∀ s, s ∈ readableSpans regions ↔ ∃ r ∈ regions, r.read = true ∧ 0 < r.size ∧
      s = ⟨r.base.toNat, r.base.toNat + (r.size - 1)⟩ := by
    intro s
    rw [readableSpans, List.mem_filterMap]
    refine exists_congr fun r => and_congr_right fun hr => ?_
    have hr := hfit r hr
    rw [if_neg (show ¬r.size - 1 > sizeMax - r.base.toNat by rw [sizeMax]; omega)]
    by_cases hpos : 0 < r.size
    · cases hread : r.read
      · simp
      · simp only [hpos, Bool.not_true, Bool.false_or, decide_eq_true_eq, true_and]
        rw [if_neg (by omega), Option.some_inj, eq_comm]
    · simp [show r.size = 0 by omega]
  have hproper : ∀ s ∈ readableSpans regions, s.first ≤ s.last ∧ s.last ≤ sizeMax := by
    intro s hs
    obtain ⟨r, hr, -, hpos, rfl⟩ := (hspan s).mp hs
    have := hfit r hr
    rw [sizeMax]
    dsimp only
    omega
  rw [readable, Spans.contains_merged hproper]
  constructor
  · rintro ⟨s, hs, hfirst, hlast⟩
    obtain ⟨r, hr, hread, hpos, rfl⟩ := (hspan s).mp hs
    exact ⟨r, hr, hread, hfirst, by dsimp only at hlast; omega⟩
  · rintro ⟨r, hr, hread, hlow, hhigh⟩
    exact ⟨_, (hspan _).mpr ⟨r, hr, hread, by omega, rfl⟩, hlow, by dsimp only; omega⟩

/-! ### The slots of a span -/

/-- The entry of the slot at an address of the memory. -/
def entryAt (mem : ℕ → UInt8) (isReadable : UInt64 → Bool) (order : ByteOrder) (ptrSize a : ℕ) :
    Option Entry :=
  slotEntry isReadable order (imageAt mem a ptrSize) (UInt64.ofNat a)

theorem windowLen_pos {step : ℕ} (hs : 0 < step) : 0 < windowLen step := by
  rw [windowLen]
  omega

theorem dvd_windowLen (step : ℕ) : step ∣ windowLen step := by
  rw [windowLen]
  rcases Nat.le_total step (kPtrReadWindow / step * step) with h | h
  · rw [Nat.max_eq_right h]
    exact Nat.dvd_mul_left _ _
  · rw [Nat.max_eq_left h]

theorem ofNat_add_ofNat (base : UInt64) (o : ℕ) :
    base + UInt64.ofNat o = UInt64.ofNat (base.toNat + o) := by
  rw [UInt64.ofNat_add, UInt64.ofNat_toNat]

section Span

variable {target : PointerTarget} {config : PointerMapConfig} {isReadable : UInt64 → Bool}
  {mem : ℕ → UInt8} {span : ReadSpan}

theorem windowEntries_eq (hread : ReadsRange target.toFirstScanTarget mem (span.base, span.size))
    (hfit : span.base.toNat + span.size ≤ 2 ^ 64) {step : ℕ} (hs : 0 < step)
    (hp : 0 < span.ptrSize) {o : ℕ} (ho : o < span.size) :
    windowEntries target isReadable step span o =
      ((strideOffsets (min (ownedAt (windowLen step) span.size o)
          (span.size + 1 - span.ptrSize - o)) step).map (o + ·)).filterMap fun x =>
        entryAt mem isReadable span.order span.ptrSize (span.base.toNat + x) := by
  have hbase : (span.base + UInt64.ofNat o).toNat = span.base.toNat + o := by
    rw [ofNat_add_ofNat, UInt64.toNat_ofNat_of_lt' (by rw [UInt64.size]; omega)]
  obtain ⟨want, hwant⟩ : ∃ n, n = min (windowLen step + span.ptrSize - 1) (span.size - o) := ⟨_, rfl⟩
  have hbuf : target.read (span.base + UInt64.ofNat o) want = imageAt mem (span.base.toNat + o) want := by
    rw [hread _ _ (by rw [UInt64.le_iff_toNat_le, hbase]; exact Nat.le_add_right _ _)
      (by rw [hbase]; dsimp only; omega), hbase]
  have hpos := windowLen_pos hs
  rw [windowEntries, ← hwant, hbuf, imageAt_length]
  by_cases hlong : want ≥ span.ptrSize
  · have hlimit : min (windowLen step) (want - span.ptrSize + 1) =
        min (ownedAt (windowLen step) span.size o) (span.size + 1 - span.ptrSize - o) := by
      rw [ownedAt]
      omega
    rw [if_pos hlong, hlimit, List.filterMap_map]
    refine List.filterMap_congr fun offset hoff => ?_
    have hoff := ((mem_strideOffsets hs).mp hoff).2
    rw [Function.comp_apply, entryAt, imageAt_window mem (by rw [← hlimit] at hoff; omega),
      Nat.add_assoc, ofNat_add_ofNat, hbase, Nat.add_assoc]
  · have hlimit : min (ownedAt (windowLen step) span.size o)
        (span.size + 1 - span.ptrSize - o) = 0 := by omega
    rw [if_neg hlong, hlimit, strideOffsets_zero hs]
    rfl

theorem spanEntries_eq (hread : ReadsRange target.toFirstScanTarget mem (span.base, span.size))
    (hfit : span.base.toNat + span.size ≤ 2 ^ 64) (hp : 0 < span.ptrSize) :
    spanEntries target config isReadable span =
      (strideOffsets (span.size + 1 - span.ptrSize) (config.ptrStep span.ptrSize)).filterMap fun x =>
        entryAt mem isReadable span.order span.ptrSize (span.base.toNat + x) := by
  have hs : 0 < config.ptrStep span.ptrSize := by
    rw [PointerMapConfig.ptrStep]
    split <;> omega
  have hw := windowLen_pos hs
  rw [spanEntries, ← chunked_offsets hs (dvd_windowLen _) hw span.size _ (by omega),
    List.filterMap_flatMap]
  exact List.flatMap_congr fun o ho =>
    windowEntries_eq hread hfit hs hp ((mem_strideOffsets hw).mp ho).2

theorem entryAt_eq_some {order : ByteOrder} {ptrSize a : ℕ} {e : Entry} :
    entryAt mem isReadable order ptrSize a = some e ↔
      Expression.decodeTargetUnsigned (imageAt mem a ptrSize) order = some e.pointsTo ∧
        isReadable e.pointsTo = true ∧ e.locatedAt = UInt64.ofNat a := by
  rw [entryAt, slotEntry]
  cases hval : Expression.decodeTargetUnsigned (imageAt mem a ptrSize) order with
  | none => simp
  | some val =>
    dsimp only
    constructor
    · intro h
      split at h
      · rename_i hr
        rw [← Option.some.inj h]
        exact ⟨rfl, hr, rfl⟩
      · cases h
    · rintro ⟨hv, hr, hl⟩
      rw [Option.some.inj hv, if_pos hr, ← hl]

theorem mem_spanEntries (hread : ReadsRange target.toFirstScanTarget mem (span.base, span.size))
    (hfit : span.base.toNat + span.size ≤ 2 ^ 64) (hp : 0 < span.ptrSize) {e : Entry} :
    e ∈ spanEntries target config isReadable span ↔
      span.base.toNat ≤ e.locatedAt.toNat ∧
        config.ptrStep span.ptrSize ∣ e.locatedAt.toNat - span.base.toNat ∧
        e.locatedAt.toNat + span.ptrSize ≤ span.base.toNat + span.size ∧
        entryAt mem isReadable span.order span.ptrSize e.locatedAt.toNat = some e := by
  have hs : 0 < config.ptrStep span.ptrSize := by
    rw [PointerMapConfig.ptrStep]
    split <;> omega
  rw [spanEntries_eq hread hfit hp, List.mem_filterMap]
  constructor
  · rintro ⟨x, hx, hentry⟩
    obtain ⟨hdvd, hlt⟩ := (mem_strideOffsets hs).mp hx
    have hloc : e.locatedAt.toNat = span.base.toNat + x := by
      rw [(entryAt_eq_some.mp hentry).2.2, UInt64.toNat_ofNat_of_lt' (by rw [UInt64.size]; omega)]
    rw [hloc]
    exact ⟨by omega, by rw [Nat.add_sub_cancel_left]; exact hdvd, by omega, hentry⟩
  · rintro ⟨hle, hdvd, hend, hentry⟩
    refine ⟨e.locatedAt.toNat - span.base.toNat, (mem_strideOffsets hs).mpr ⟨hdvd, by omega⟩, ?_⟩
    rw [show span.base.toNat + (e.locatedAt.toNat - span.base.toNat) = e.locatedAt.toNat by omega]
    exact hentry

theorem spanEntries_nodup (hread : ReadsRange target.toFirstScanTarget mem (span.base, span.size))
    (hfit : span.base.toNat + span.size ≤ 2 ^ 64) (hp : 0 < span.ptrSize) :
    ((spanEntries target config isReadable span).map Entry.locatedAt).Nodup := by
  have hs : 0 < config.ptrStep span.ptrSize := by
    rw [PointerMapConfig.ptrStep]
    split <;> omega
  rw [spanEntries_eq hread hfit hp, List.Nodup, List.pairwise_map, List.pairwise_filterMap]
  refine (strideOffsets_sorted _ hs).imp_of_mem fun {x y} hx hy hlt e he e' he' heq => ?_
  have hx := ((mem_strideOffsets hs).mp hx).2
  have hy := ((mem_strideOffsets hs).mp hy).2
  rw [(entryAt_eq_some.mp he).2.2, (entryAt_eq_some.mp he').2.2] at heq
  have := congrArg UInt64.toNat heq
  rw [UInt64.toNat_ofNat_of_lt' (by rw [UInt64.size]; omega),
    UInt64.toNat_ofNat_of_lt' (by rw [UInt64.size]; omega)] at this
  omega

end Span

/-! ### The slots of a region -/

/-- What `residentRanges` lists of a region: whole pages, one run after the other; what it leaves
out holds zeros. -/
structure ListsPages (mem : ℕ → UInt8) (pageSize : ℕ) (region : MemoryRegion)
    (ranges : List (UInt64 × UInt64)) : Prop where
  start : ∀ range ∈ ranges, pageSize ∣ range.1.toNat
  finish : ∀ range ∈ ranges, pageSize ∣ range.2.toNat
  apart : ranges.Pairwise fun range range' => range.2.toNat ≤ range'.1.toNat
  zero : ∀ a, region.base.toNat ≤ a → a < region.base.toNat + region.size →
    (∀ range ∈ ranges, ¬(range.1.toNat ≤ a ∧ a < range.2.toNat)) → mem a = 0

section Region

variable {region : MemoryRegion} {width : ℕ} {order : ByteOrder}

theorem toNat_max (a b : UInt64) : (max a b).toNat = max a.toNat b.toNat := by
  change (if a ≤ b then b else a).toNat = _
  simp only [UInt64.le_iff_toNat_le]
  split <;> omega

theorem toNat_min (a b : UInt64) : (min a b).toNat = min a.toNat b.toNat := by
  change (if a ≤ b then a else b).toNat = _
  simp only [UInt64.le_iff_toNat_le]
  split <;> omega

theorem residentSpan_eq (hfit : region.base.toNat + region.size < 2 ^ 64) (hw : width = 4 ∨ width = 8)
    (hbase : width ∣ region.base.toNat) {range : UInt64 × UInt64} (hstart : width ∣ range.1.toNat) :
    residentSpan region (UInt64.ofNat width) width order range =
      if min range.2.toNat (region.base.toNat + region.size) ≤ max range.1.toNat region.base.toNat
      then none
      else some ⟨UInt64.ofNat (max range.1.toNat region.base.toNat),
        min range.2.toNat (region.base.toNat + region.size) - max range.1.toNat region.base.toNat,
        width, order⟩ := by
  obtain ⟨start, hs⟩ : ∃ x, x = max range.1 region.base := ⟨_, rfl⟩
  have hsn : start.toNat = max range.1.toNat region.base.toNat := by rw [hs, toNat_max]
  have hsdvd : width ∣ start.toNat := by
    rw [hsn]
    rcases Nat.le_total range.1.toNat region.base.toNat with h | h
    · rwa [Nat.max_eq_right h]
    · rwa [Nat.max_eq_left h]
  have hwn : (UInt64.ofNat width).toNat = width :=
    UInt64.toNat_ofNat_of_lt' (by rw [UInt64.size]; omega)
  have hrem : (start - region.base) % UInt64.ofNat width = 0 := by
    refine UInt64.toNat_inj.mp ?_
    rw [UInt64.toNat_mod, UInt64.toNat_sub_of_le _ _ (by rw [UInt64.le_iff_toNat_le]; omega), hwn]
    exact Nat.mod_eq_zero_of_dvd (Nat.dvd_sub hsdvd hbase)
  have hbump : start + (UInt64.ofNat width - (start - region.base) % UInt64.ofNat width)
      % UInt64.ofNat width = start := by
    rw [hrem, UInt64.sub_zero, UInt64.mod_self, UInt64.add_zero]
  have hend : (region.base + UInt64.ofNat region.size).toNat = region.base.toNat + region.size := by
    rw [ofNat_add_ofNat, UInt64.toNat_ofNat_of_lt' (by rw [UInt64.size]; omega)]
  rw [residentSpan, ← hs, hbump]
  simp only [UInt64.le_iff_toNat_le, toNat_min, hend, hsn]
  split
  · rfl
  · rename_i hlt
    rw [UInt64.toNat_sub_of_le _ _ (by rw [UInt64.le_iff_toNat_le, toNat_min, hend]; omega), toNat_min,
      hend, ← hsn, UInt64.ofNat_toNat]

theorem knownMachine_iff : knownMachine width order = true ↔ (width = 4 ∨ width = 8) ∧ order ≠ .unknown := by
  rw [knownMachine, Bool.and_eq_true, Bool.or_eq_true]
  simp only [decide_eq_true_eq]

theorem decode_zeros (h : knownMachine width order = true) :
    Expression.decodeTargetUnsigned (List.replicate width 0) order = some 0 := by
  obtain ⟨rfl | rfl, ho⟩ := knownMachine_iff.mp h
  · cases order with
    | unknown => exact absurd rfl ho
    | little => decide
    | big => decide
  · cases order with
    | unknown => exact absurd rfl ho
    | little => decide
    | big => decide

/-- Below a multiple there is room for a whole step. -/
theorem add_le_of_dvd {w x y : ℕ} (hx : w ∣ x) (hy : w ∣ y) (h : x < y) : x + w ≤ y := by
  have := Nat.le_of_dvd (by omega) (Nat.dvd_sub hy hx)
  omega

theorem ListsPages.zeros {mem : ℕ → UInt8} {pageSize : ℕ} {ranges : List (UInt64 × UInt64)}
    (h : ListsPages mem pageSize region ranges) (hps : width ∣ pageSize) {a : ℕ} (ha : width ∣ a)
    (hlow : region.base.toNat ≤ a) (hhigh : a + width ≤ region.base.toNat + region.size)
    (hout : ∀ range ∈ ranges, ¬(range.1.toNat ≤ a ∧ a < range.2.toNat)) :
    imageAt mem a width = List.replicate width 0 := by
  refine List.eq_replicate_iff.mpr ⟨imageAt_length _ _ _, fun b hb => ?_⟩
  obtain ⟨i, hi, rfl⟩ := List.mem_map.mp hb
  have hi := List.mem_range.mp hi
  refine h.zero _ (by omega) (by omega) fun range hrange hin => hout range hrange ⟨?_, by omega⟩
  by_contra hlt
  have := add_le_of_dvd ha (Nat.dvd_trans hps (h.start range hrange)) (Nat.not_le.mp hlt)
  omega

structure OnPages (pageSize : ℕ) (region : MemoryRegion) : Prop where
  base : pageSize ∣ region.base.toNat
  size : pageSize ∣ region.size
  fits : region.base.toNat + region.size ≤ 2 ^ 64

variable {target : PointerTarget} {config : PointerMapConfig} {isReadable : UInt64 → Bool}
  {mem : ℕ → UInt8} {pageSize : ℕ} {skip : Bool}

structure SpanOf (target : PointerTarget) (config : PointerMapConfig) (region : MemoryRegion)
    (span : ReadSpan) : Prop where
  readable : region.read = true
  known : knownMachine span.ptrSize span.order = true
  machine : target.machineIn region = (span.ptrSize, span.order)
  low : region.base.toNat ≤ span.base.toNat
  grid : config.ptrStep span.ptrSize ∣ span.base.toNat - region.base.toNat
  high : span.base.toNat + span.size ≤ region.base.toNat + region.size

theorem width_dvd_page (h : knownMachine width order = true) (hps : 8 ∣ pageSize) :
    width ∣ pageSize := by
  rcases (knownMachine_iff.mp h).1 with rfl | rfl
  · exact Nat.dvd_trans (by decide) hps
  · exact hps

theorem mem_residentSpans (hps : 8 ∣ pageSize) (hregion : OnPages pageSize region)
    (hfit : region.base.toNat + region.size < 2 ^ 64)
    (hknown : knownMachine width order = true) {ranges : List (UInt64 × UInt64)}
    (hlist : ListsPages mem pageSize region ranges) {range : UInt64 × UInt64} (hr : range ∈ ranges)
    {span : ReadSpan} :
    residentSpan region (UInt64.ofNat width) width order range = some span ↔
      max range.1.toNat region.base.toNat < min range.2.toNat (region.base.toNat + region.size) ∧
        span.base.toNat = max range.1.toNat region.base.toNat ∧
        span.base.toNat + span.size = min range.2.toNat (region.base.toNat + region.size) ∧
        span.ptrSize = width ∧ span.order = order := by
  have hw := (knownMachine_iff.mp hknown).1
  have hdvd := width_dvd_page hknown hps
  rw [residentSpan_eq hfit hw (Nat.dvd_trans hdvd hregion.base)
    (Nat.dvd_trans hdvd (hlist.start range hr))]
  split
  · constructor
    · intro h
      cases h
    · rintro ⟨h, -⟩
      omega
  · rename_i hlt
    have hn : (UInt64.ofNat (max range.1.toNat region.base.toNat)).toNat
        = max range.1.toNat region.base.toNat :=
      UInt64.toNat_ofNat_of_lt' (by rw [UInt64.size]; omega)
    constructor
    · intro h
      rw [← Option.some.inj h]
      dsimp only
      rw [hn]
      exact ⟨by omega, rfl, by omega, rfl, rfl⟩
    · rintro ⟨-, hb, hsz, rfl, rfl⟩
      have hbase : UInt64.ofNat (max range.1.toNat region.base.toNat) = span.base :=
        UInt64.toNat_inj.mp (by rw [hn, hb])
      rw [hbase, show min range.2.toNat (region.base.toNat + region.size)
        - max range.1.toNat region.base.toNat = span.size by omega]

/-- A region whose pages do not change while it is read. -/
structure StaticRegion (target : PointerTarget) (mem : ℕ → UInt8) (pageSize : ℕ)
    (region : MemoryRegion) : Prop where
  pages : OnPages pageSize region
  reads : region.read = true →
    ReadsRange target.toFirstScanTarget mem (region.base, region.size)
  lists : skipsRegion region = true →
    ListsPages mem pageSize region (target.residentRanges region.base region.size)

/-- A region that is read: readable, not empty and of a known machine. -/
def isRead (target : PointerTarget) (region : MemoryRegion) : Bool :=
  region.read && decide (0 < region.size)
    && knownMachine (target.machineIn region).1 (target.machineIn region).2

theorem readSpans_eq : readSpans target config skip region =
    if isRead target region then
      if skip && skipsRegion region then
        (target.residentRanges region.base region.size).filterMap
          (residentSpan region (UInt64.ofNat (config.ptrStep (target.machineIn region).1))
            (target.machineIn region).1 (target.machineIn region).2)
      else [⟨region.base, region.size, (target.machineIn region).1, (target.machineIn region).2⟩]
    else [] := by
  rw [readSpans, isRead]
  cases region.read with
  | false => rfl
  | true =>
    by_cases hsize : region.size = 0
    · simp [hsize]
    · simp only [hsize, Nat.pos_of_ne_zero hsize, Bool.not_true, Bool.false_or, decide_false,
        Bool.false_eq_true, if_false, decide_true, Bool.true_and]
      cases knownMachine (target.machineIn region).1 (target.machineIn region).2 <;> rfl

theorem skipsRegion_fits (h : skipsRegion region = true) :
    region.base.toNat + region.size < 2 ^ 64 := by
  simp only [skipsRegion, Bool.and_eq_true, decide_eq_true_eq] at h
  have := region.base.toNat_lt
  have hle := h.2
  rw [sizeMax] at hle
  omega

theorem isRead_iff : isRead target region = true ↔ region.read = true ∧ 0 < region.size ∧
    knownMachine (target.machineIn region).1 (target.machineIn region).2 = true := by
  rw [isRead, Bool.and_eq_true, Bool.and_eq_true, decide_eq_true_eq, and_assoc]

theorem spanOf_mem (hps : 8 ∣ pageSize) (hregion : StaticRegion target mem pageSize region)
    (hskip : skip = true → config.alignedOnly = true) {span : ReadSpan}
    (hspan : span ∈ readSpans target config skip region) : SpanOf target config region span := by
  rw [readSpans_eq] at hspan
  split at hspan
  · rename_i hr
    obtain ⟨hread, -, hknown⟩ := isRead_iff.mp hr
    split at hspan
    · rename_i hruns
      rw [Bool.and_eq_true] at hruns
      have hfit := skipsRegion_fits hruns.2
      have hlist := hregion.lists hruns.2
      obtain ⟨range, hrange, hspan⟩ := List.mem_filterMap.mp hspan
      have hstep : ∀ w, config.ptrStep w = w := fun w => if_pos (hskip hruns.1)
      rw [hstep] at hspan
      obtain ⟨hlt, hbase, hend, hsize, horder⟩ := (mem_residentSpans hps hregion.pages hfit hknown
        hlist hrange).mp hspan
      -- a run starts on a page, or with its region
      have hpage : pageSize ∣ span.base.toNat := by
        rw [hbase]
        rcases Nat.le_total range.1.toNat region.base.toNat with h | h
        · rw [Nat.max_eq_right h]
          exact hregion.pages.base
        · rw [Nat.max_eq_left h]
          exact hlist.start range hrange
      refine ⟨hread, by rw [hsize, horder]; exact hknown, by rw [hsize, horder], by omega, ?_,
        by omega⟩
      rw [hstep, hsize]
      exact Nat.dvd_trans (width_dvd_page hknown hps) (Nat.dvd_sub hpage hregion.pages.base)
    · rw [List.mem_singleton.mp hspan]
      exact ⟨hread, hknown, rfl, Nat.le_refl _, by simp, Nat.le_refl _⟩
  · cases hspan

def ReadSpan.Disjoint (s s' : ReadSpan) : Prop :=
  s.base.toNat + s.size ≤ s'.base.toNat ∨ s'.base.toNat + s'.size ≤ s.base.toNat

theorem readSpans_disjoint (hps : 8 ∣ pageSize) (hregion : StaticRegion target mem pageSize region)
    (hskip : skip = true → config.alignedOnly = true) :
    (readSpans target config skip region).Pairwise ReadSpan.Disjoint := by
  rw [readSpans_eq]
  split
  · rename_i hr
    obtain ⟨-, -, hknown⟩ := isRead_iff.mp hr
    split
    · rename_i hruns
      rw [Bool.and_eq_true] at hruns
      have hfit := skipsRegion_fits hruns.2
      have hlist := hregion.lists hruns.2
      rw [PointerMapConfig.ptrStep, if_pos (hskip hruns.1), List.pairwise_filterMap]
      refine hlist.apart.imp_of_mem fun {r r'} hr hr' hle span hspan span' hspan' => Or.inl ?_
      obtain ⟨-, -, hend, -⟩ := (mem_residentSpans hps hregion.pages hfit hknown hlist hr).mp hspan
      obtain ⟨-, hbase, -⟩ := (mem_residentSpans hps hregion.pages hfit hknown hlist hr').mp hspan'
      omega
    · exact List.pairwise_singleton _ _
  · exact List.Pairwise.nil

structure RegionSlot (target : PointerTarget) (config : PointerMapConfig) (mem : ℕ → UInt8)
    (isReadable : UInt64 → Bool) (region : MemoryRegion) (e : Entry) : Prop where
  readable : region.read = true
  known : knownMachine (target.machineIn region).1 (target.machineIn region).2 = true
  low : region.base.toNat ≤ e.locatedAt.toNat
  grid : config.ptrStep (target.machineIn region).1 ∣ e.locatedAt.toNat - region.base.toNat
  high : e.locatedAt.toNat + (target.machineIn region).1 ≤ region.base.toNat + region.size
  entry : entryAt mem isReadable (target.machineIn region).2 (target.machineIn region).1
    e.locatedAt.toNat = some e

theorem exists_span (hps : 8 ∣ pageSize) (hregion : StaticRegion target mem pageSize region)
    (hskip : skip = true → config.alignedOnly = true ∧ isReadable 0 = false) {e : Entry}
    (h : RegionSlot target config mem isReadable region e) :
    ∃ span ∈ readSpans target config skip region, span.base.toNat ≤ e.locatedAt.toNat ∧
      e.locatedAt.toNat + span.ptrSize ≤ span.base.toNat + span.size := by
  have hwidth := (knownMachine_iff.mp h.known).1
  have hlow := h.low
  have hhigh := h.high
  have hr : isRead target region = true := isRead_iff.mpr ⟨h.readable, by omega, h.known⟩
  rw [readSpans_eq, if_pos hr]
  split
  · rename_i hruns
    rw [Bool.and_eq_true] at hruns
    have hfit := skipsRegion_fits hruns.2
    obtain ⟨halign, hzero⟩ := hskip hruns.1
    have hlist := hregion.lists hruns.2
    have hstep : ∀ w, config.ptrStep w = w := fun w => if_pos halign
    have hgrid := h.grid
    have hpage := width_dvd_page h.known hps
    have hbase := Nat.dvd_trans hpage hregion.pages.base
    rw [hstep] at hgrid ⊢
    have hslot : (target.machineIn region).1 ∣ e.locatedAt.toNat := by
      rw [show e.locatedAt.toNat = (e.locatedAt.toNat - region.base.toNat) + region.base.toNat by omega]
      exact Nat.dvd_add hgrid hbase
    by_cases hin : ∃ range ∈ target.residentRanges region.base region.size,
        range.1.toNat ≤ e.locatedAt.toNat ∧ e.locatedAt.toNat < range.2.toNat
    · obtain ⟨range, hrange, hin⟩ := hin
      have hroom := add_le_of_dvd hslot (Nat.dvd_trans hpage (hlist.finish range hrange)) hin.2
      have hn : (UInt64.ofNat (max range.1.toNat region.base.toNat)).toNat
          = max range.1.toNat region.base.toNat :=
        UInt64.toNat_ofNat_of_lt' (by rw [UInt64.size]; omega)
      refine ⟨⟨UInt64.ofNat (max range.1.toNat region.base.toNat),
        min range.2.toNat (region.base.toNat + region.size) - max range.1.toNat region.base.toNat,
        (target.machineIn region).1, (target.machineIn region).2⟩, ?_, ?_, ?_⟩
      · refine List.mem_filterMap.mpr ⟨range, hrange, ?_⟩
        exact (mem_residentSpans hps hregion.pages hfit h.known hlist hrange).mpr
          ⟨by omega, hn, by dsimp only; omega, rfl, rfl⟩
      · dsimp only
        omega
      · dsimp only
        omega
    · -- the slot holds zeros, and zero is no readable address
      have hzeros := hlist.zeros hpage hslot hlow hhigh (fun range hrange hmem =>
        hin ⟨range, hrange, hmem⟩)
      obtain ⟨hval, hreadable, -⟩ := entryAt_eq_some.mp h.entry
      rw [hzeros, decode_zeros h.known] at hval
      rw [← Option.some.inj hval, hzero] at hreadable
      cases hreadable
  · exact ⟨_, List.mem_singleton_self _, hlow, hhigh⟩

theorem SpanOf.reads (hregion : StaticRegion target mem pageSize region) {span : ReadSpan}
    (hspan : SpanOf target config region span) :
    ReadsRange target.toFirstScanTarget mem (span.base, span.size) := by
  intro a n ha hn
  have hlow := hspan.low
  have hhigh := hspan.high
  rw [UInt64.le_iff_toNat_le] at ha
  dsimp only at ha hn
  exact hregion.reads hspan.readable a n (by rw [UInt64.le_iff_toNat_le]; dsimp only; omega)
    (by dsimp only; omega)

theorem SpanOf.bounds (hregion : StaticRegion target mem pageSize region) {span : ReadSpan}
    (hspan : SpanOf target config region span) :
    span.base.toNat + span.size ≤ 2 ^ 64 ∧ 0 < span.ptrSize := by
  have hwidth := (knownMachine_iff.mp hspan.known).1
  have hhigh := hspan.high
  have hfits := hregion.pages.fits
  omega

theorem mem_regionEntries (hps : 8 ∣ pageSize) (hregion : StaticRegion target mem pageSize region)
    (hskip : skip = true → config.alignedOnly = true ∧ isReadable 0 = false) {e : Entry} :
    e ∈ (readSpans target config skip region).flatMap (spanEntries target config isReadable) ↔
      RegionSlot target config mem isReadable region e := by
  have hmem : ∀ span ∈ readSpans target config skip region, SpanOf target config region span ∧
      (e ∈ spanEntries target config isReadable span ↔
        span.base.toNat ≤ e.locatedAt.toNat ∧
          config.ptrStep span.ptrSize ∣ e.locatedAt.toNat - span.base.toNat ∧
          e.locatedAt.toNat + span.ptrSize ≤ span.base.toNat + span.size ∧
          entryAt mem isReadable span.order span.ptrSize e.locatedAt.toNat = some e) := by
    intro span hs
    have hspan := spanOf_mem hps hregion (fun h => (hskip h).1) hs
    obtain ⟨hfit, hpos⟩ := hspan.bounds hregion
    exact ⟨hspan, mem_spanEntries (hspan.reads hregion) hfit hpos⟩
  rw [List.mem_flatMap]
  constructor
  · rintro ⟨span, hs, he⟩
    obtain ⟨hspan, hiff⟩ := hmem span hs
    obtain ⟨hlow, hgrid, hhigh, hentry⟩ := hiff.mp he
    have hslow := hspan.low
    have hshigh := hspan.high
    refine ⟨hspan.readable, by rw [hspan.machine]; exact hspan.known, by omega, ?_,
      by rw [hspan.machine]; dsimp only; omega, by rw [hspan.machine]; exact hentry⟩
    rw [hspan.machine, show e.locatedAt.toNat - region.base.toNat
      = (e.locatedAt.toNat - span.base.toNat) + (span.base.toNat - region.base.toNat) by omega]
    exact Nat.dvd_add hgrid hspan.grid
  · intro h
    obtain ⟨span, hs, hlow, hhigh⟩ := exists_span hps hregion hskip h
    obtain ⟨hspan, hiff⟩ := hmem span hs
    have hgrid := h.grid
    have hentry := h.entry
    have hslow := hspan.low
    rw [hspan.machine] at hgrid hentry
    refine ⟨span, hs, hiff.mpr ⟨hlow, ?_, hhigh, hentry⟩⟩
    rw [show e.locatedAt.toNat - span.base.toNat
      = (e.locatedAt.toNat - region.base.toNat) - (span.base.toNat - region.base.toNat) by omega]
    exact Nat.dvd_sub hgrid hspan.grid

end Region

/-! ### The map -/

section Map

variable {target : PointerTarget} {config : PointerMapConfig} {mem : ℕ → UInt8} {pageSize : ℕ}

/-- The ranges of `ProcessHandle`, and those of a local process. -/
def ListsResident (target : PointerTarget) (pageSize : ℕ) (entry : ℕ → Option UInt64) : Prop :=
  target.residentRanges = (fun base size => [(base, base + UInt64.ofNat size)]) ∨
    target.residentRanges = residentRanges pageSize entry

/-- Pages of anonymous memory that are not listed hold zeros. -/
def UnlistedZero (target : PointerTarget) (mem : ℕ → UInt8) : Prop :=
  ∀ region ∈ target.regions, region.type = .priv →
    ∀ a, region.base.toNat ≤ a → a < region.base.toNat + region.size →
      (∀ range ∈ target.residentRanges region.base region.size,
        ¬(range.1.toNat ≤ a ∧ a < range.2.toNat)) → mem a = 0

theorem wholeRange_grid {region : MemoryRegion} (hpages : OnPages pageSize region)
    (hfit : region.base.toNat + region.size < 2 ^ 64) {range : UInt64 × UInt64}
    (h : range ∈ [(region.base, UInt64.ofNat (region.base.toNat + region.size))]) :
    pageSize ∣ range.1.toNat ∧ pageSize ∣ range.2.toNat := by
  rw [List.mem_singleton.mp h]
  refine ⟨hpages.base, ?_⟩
  dsimp only
  rw [UInt64.toNat_ofNat_of_lt' (by rw [UInt64.size]; omega)]
  exact Nat.dvd_add hpages.base hpages.size

theorem resident_grid {entry : ℕ → Option UInt64} (hres : ListsResident target pageSize entry)
    {region : MemoryRegion} (hpages : OnPages pageSize region)
    (hfit : region.base.toNat + region.size < 2 ^ 64) :
    (∀ range ∈ target.residentRanges region.base region.size,
        pageSize ∣ range.1.toNat ∧ pageSize ∣ range.2.toNat) ∧
      (target.residentRanges region.base region.size).Pairwise fun range range' =>
        range.2.toNat ≤ range'.1.toNat := by
  have hwhole : target.residentRanges region.base region.size
        = [(region.base, UInt64.ofNat (region.base.toNat + region.size))] →
      (∀ range ∈ target.residentRanges region.base region.size,
        pageSize ∣ range.1.toNat ∧ pageSize ∣ range.2.toNat) ∧
      (target.residentRanges region.base region.size).Pairwise fun range range' =>
        range.2.toNat ≤ range'.1.toNat := by
    intro h
    rw [h]
    exact ⟨fun range hr => wholeRange_grid hpages hfit hr, List.pairwise_singleton _ _⟩
  rcases hres with hres | hres
  · refine hwhole ?_
    rw [hres]
    dsimp only
    rw [ofNat_add_ofNat]
  · by_cases hstop : (decide (pageSize = 0) || decide (region.size = 0)) = true
    · refine hwhole ?_
      rw [hres, residentRanges, if_pos hstop]
    · by_cases hunread : (pagesFrom (region.base.toNat / pageSize * pageSize)
          (region.base.toNat + region.size) pageSize).any
          (fun page => (entry (page / pageSize)).isNone) = true
      · refine hwhole ?_
        rw [hres, residentRanges, if_neg hstop]
        dsimp only
        rw [if_pos hunread]
      · have hps : 0 < pageSize := by
          rw [Bool.or_eq_true, not_or, decide_eq_true_eq] at hstop
          omega
        have hover := (@residentScan_over (fun page => pageWorth ((entry page).getD 0))
          region.base.toNat (region.base.toNat + region.size) pageSize hps
          (region.base.toNat / pageSize * pageSize) (Nat.dvd_mul_left _ _)).1
        have hruns : target.residentRanges region.base region.size =
            (residentScan (fun page => pageWorth ((entry page).getD 0)) region.base.toNat
              (region.base.toNat + region.size) pageSize none
              (pagesFrom (region.base.toNat / pageSize * pageSize)
                (region.base.toNat + region.size) pageSize)).map
              fun run => (UInt64.ofNat run.1, UInt64.ofNat run.2) := by
          rw [hres, residentRanges, if_neg hstop]
          dsimp only
          rw [if_neg hunread]
        rw [hruns]
        generalize residentScan (fun page => pageWorth ((entry page).getD 0)) region.base.toNat
          (region.base.toNat + region.size) pageSize none (pagesFrom
            (region.base.toNat / pageSize * pageSize) (region.base.toNat + region.size) pageSize)
          = runs at hover
        have hn : ∀ run ∈ runs, (UInt64.ofNat run.1).toNat = run.1 ∧
            (UInt64.ofNat run.2).toNat = run.2 := by
          intro run hrun
          have := hover.bounds run hrun
          exact ⟨UInt64.toNat_ofNat_of_lt' (by rw [UInt64.size]; omega),
            UInt64.toNat_ofNat_of_lt' (by rw [UInt64.size]; omega)⟩
        refine ⟨?_, ?_⟩
        · intro range hrange
          obtain ⟨run, hrun, rfl⟩ := List.mem_map.mp hrange
          dsimp only
          rw [(hn run hrun).1, (hn run hrun).2]
          refine ⟨?_, ?_⟩
          · rcases hover.start run hrun with h | h
            · rw [h]
              exact hpages.base
            · exact h
          · rcases hover.finish run hrun with h | h
            · rw [h]
              exact Nat.dvd_add hpages.base hpages.size
            · exact h
        · rw [List.pairwise_map]
          refine hover.sorted.imp_of_mem fun {run run'} hrun hrun' hle => ?_
          dsimp only
          rw [(hn run hrun).2, (hn run' hrun').1]
          exact hle

theorem staticRegion {entry : ℕ → Option UInt64} (hres : ListsResident target pageSize entry)
    (hzero : UnlistedZero target mem) {region : MemoryRegion} (hregion : region ∈ target.regions)
    (hpages : OnPages pageSize region)
    (hread : region.read = true →
      ReadsRange target.toFirstScanTarget mem (region.base, region.size)) :
    StaticRegion target mem pageSize region := by
  refine ⟨hpages, hread, fun hskips => ?_⟩
  obtain ⟨hgrid, hapart⟩ := resident_grid hres hpages (skipsRegion_fits hskips)
  have hpriv : region.type = .priv := by
    simp only [skipsRegion, Bool.and_eq_true, decide_eq_true_eq] at hskips
    exact hskips.1.1
  exact ⟨fun range hr => (hgrid range hr).1, fun range hr => (hgrid range hr).2, hapart,
    hzero region hregion hpriv⟩

/-- A slot with a pointer: the whole pointer lies in one readable region, on the grid of the
region, and its value lies in a readable region. -/
def PointerSlot (target : PointerTarget) (config : PointerMapConfig) (mem : ℕ → UInt8) (e : Entry) :
    Prop :=
  ∃ region ∈ target.regions, region.read = true ∧
    ∃ width order, target.machineIn region = (width, order) ∧ knownMachine width order = true ∧
      (∃ k, e.locatedAt.toNat = region.base.toNat + k * config.ptrStep width) ∧
      e.locatedAt.toNat + width ≤ region.base.toNat + region.size ∧
      Expression.decodeTargetUnsigned (imageAt mem e.locatedAt.toNat width) order
        = some e.pointsTo ∧
      ∃ r ∈ target.regions, r.read = true ∧ r.base.toNat ≤ e.pointsTo.toNat ∧
        e.pointsTo.toNat < r.base.toNat + r.size

theorem pointerSlot_iff (hfit : ∀ r ∈ target.regions, r.base.toNat + r.size ≤ 2 ^ 64) {e : Entry} :
    PointerSlot target config mem e ↔
      ∃ region ∈ target.regions, RegionSlot target config mem (readable target.regions) region e := by
  refine exists_congr fun region => and_congr_right fun _ => ?_
  constructor
  · rintro ⟨hread, width, order, hm, hknown, ⟨k, hk⟩, hhigh, hval, hpoints⟩
    refine ⟨hread, by rw [hm]; exact hknown, by omega, ?_, by rw [hm]; exact hhigh, ?_⟩
    · rw [hk, Nat.add_sub_cancel_left, hm]
      exact Nat.dvd_mul_left _ _
    · rw [hm, entryAt_eq_some, UInt64.ofNat_toNat]
      exact ⟨hval, (readable_iff hfit _).mpr hpoints, rfl⟩
  · intro h
    obtain ⟨hval, hpoints, -⟩ := entryAt_eq_some.mp h.entry
    obtain ⟨k, hk⟩ := h.grid
    have hlow := h.low
    have hslot : e.locatedAt.toNat
        = region.base.toNat + k * config.ptrStep (target.machineIn region).1 := by
      rw [Nat.mul_comm k, ← hk]
      omega
    exact ⟨h.readable, (target.machineIn region).1, (target.machineIn region).2, rfl, h.known,
      ⟨k, hslot⟩, h.high, hval, (readable_iff hfit _).mp hpoints⟩

variable (hps : 8 ∣ pageSize) (hstatic : ∀ r ∈ target.regions, StaticRegion target mem pageSize r)

include hps hstatic

theorem mem_allEntries {e : Entry} :
    e ∈ allEntries target config ↔ PointerSlot target config mem e := by
  have hskip : (config.alignedOnly && !readable target.regions 0) = true →
      config.alignedOnly = true ∧ readable target.regions 0 = false := by
    intro h
    rwa [Bool.and_eq_true, Bool.not_eq_true'] at h
  rw [pointerSlot_iff fun r hr => (hstatic r hr).pages.fits, allEntries, allSpans,
    List.flatMap_assoc, List.mem_flatMap]
  exact exists_congr fun region => and_congr_right fun hr =>
    mem_regionEntries hps (hstatic region hr) hskip

theorem allSpans_disjoint (hdisjoint : target.regions.Pairwise MemoryRegion.Disjoint) :
    (allSpans target config).Pairwise ReadSpan.Disjoint := by
  have hskip : (config.alignedOnly && !readable target.regions 0) = true →
      config.alignedOnly = true := fun h => (Bool.and_eq_true _ _ ▸ h).1
  rw [allSpans, List.pairwise_flatMap]
  refine ⟨fun region hr => readSpans_disjoint hps (hstatic region hr) hskip, ?_⟩
  refine hdisjoint.imp_of_mem fun {r r'} hr hr' hd span hs span' hs' => ?_
  have h := spanOf_mem hps (hstatic r hr) hskip hs
  have h' := spanOf_mem hps (hstatic r' hr') hskip hs'
  have := h.low
  have := h.high
  have := h'.low
  have := h'.high
  rw [MemoryRegion.Disjoint] at hd
  rw [ReadSpan.Disjoint]
  omega

/-- No slot is found twice. -/
theorem allEntries_nodup (hdisjoint : target.regions.Pairwise MemoryRegion.Disjoint) :
    ((allEntries target config).map Entry.locatedAt).Nodup := by
  have hskip : (config.alignedOnly && !readable target.regions 0) = true →
      config.alignedOnly = true := fun h => (Bool.and_eq_true _ _ ▸ h).1
  have hspan : ∀ span ∈ allSpans target config,
      ReadsRange target.toFirstScanTarget mem (span.base, span.size) ∧
        span.base.toNat + span.size ≤ 2 ^ 64 ∧ 0 < span.ptrSize := by
    intro span hs
    obtain ⟨region, hr, hs⟩ := List.mem_flatMap.mp hs
    have h := spanOf_mem hps (hstatic region hr) hskip hs
    exact ⟨h.reads (hstatic region hr), h.bounds (hstatic region hr)⟩
  rw [allEntries, List.map_flatMap, List.nodup_flatMap]
  refine ⟨fun span hs => ?_, ?_⟩
  · obtain ⟨hread, hfit, hpos⟩ := hspan span hs
    exact spanEntries_nodup hread hfit hpos
  · refine (allSpans_disjoint hps hstatic hdisjoint).imp_of_mem fun {s s'} hs hs' hd => ?_
    obtain ⟨hread, hfit, hpos⟩ := hspan s hs
    obtain ⟨hread', hfit', hpos'⟩ := hspan s' hs'
    intro slot hslot hslot'
    obtain ⟨e, he, rfl⟩ := List.mem_map.mp hslot
    obtain ⟨e', he', heq⟩ := List.mem_map.mp hslot'
    have h := (mem_spanEntries hread hfit hpos).mp he
    have h' := (mem_spanEntries hread' hfit' hpos').mp he'
    rw [heq] at h'
    rw [ReadSpan.Disjoint] at hd
    omega

omit hps hstatic

/-- One entry for each slot with a pointer, and no other. -/
theorem buildPointerMap_complete {entry : ℕ → Option UInt64}
    (hmachine : knownMachine (target.pointerWidth 0) (target.byteOrder 0) = true)
    (hps : 8 ∣ pageSize) (hpages : ∀ r ∈ target.regions, OnPages pageSize r)
    (hdisjoint : target.regions.Pairwise MemoryRegion.Disjoint)
    (hres : ListsResident target pageSize entry) (hzero : UnlistedZero target mem)
    (hread : ∀ r ∈ target.regions, r.read = true →
      ReadsRange target.toFirstScanTarget mem (r.base, r.size)) :
    ∃ map, buildPointerMap target config = .ok map ∧
      (map.truncated = true → map.byTarget.length = config.maxEntries) ∧
      map.DistinctSlots ∧
      (∀ e ∈ map.byTarget, PointerSlot target config mem e) ∧
      (map.truncated = false → ∀ e, PointerSlot target config mem e → e ∈ map.byTarget) := by
  have hstatic : ∀ r ∈ target.regions, StaticRegion target mem pageSize r := fun r hr =>
    staticRegion hres hzero hr (hpages r hr) (hread r hr)
  have hscan := scanMemory_eq target config
  have hbuild : buildPointerMap target config = .ok (PointerMap.setEntries (scanMemory target config).1
      target.modules (scanMemory target config).2 (scanMemory_length_le target config)) := by
    rw [buildPointerMap, hmachine]
    rfl
  have hperm : (PointerMap.setEntries (scanMemory target config).1 target.modules
      (scanMemory target config).2 (scanMemory_length_le target config)).byTarget.Perm
      ((allEntries target config).take config.maxEntries) := by
    have hsort := BinarySearch.sortBy_perm (fun e : Entry => e.pointsTo.toNat)
      (scanMemory target config).1
    exact hsort.trans (List.Perm.of_eq (by rw [hscan, seen]))
  have htruncated : (PointerMap.setEntries (scanMemory target config).1 target.modules
      (scanMemory target config).2 (scanMemory_length_le target config)).truncated
      = decide (config.maxEntries < (allEntries target config).length) := by
    change (scanMemory target config).2 = _
    rw [hscan, seen]
  refine ⟨_, hbuild, fun h => ?_, ?_, fun e he => ?_, fun h e he => ?_⟩
  · rw [htruncated, decide_eq_true_eq] at h
    rw [hperm.length_eq, List.length_take]
    omega
  · exact (hperm.map Entry.locatedAt).nodup_iff.mpr
      ((allEntries_nodup hps hstatic hdisjoint).sublist ((List.take_sublist _ _).map _))
  · exact (mem_allEntries hps hstatic).mp ((List.take_sublist _ _).subset (hperm.mem_iff.mp he))
  · rw [htruncated, decide_eq_false_iff_not, not_lt] at h
    rw [hperm.mem_iff, List.take_of_length_le h]
    exact (mem_allEntries hps hstatic).mpr he

/-- A process whose one page holds a pointer to itself in its second slot. -/
def selfPointer (a : ℕ) : UInt8 := if a = 0x1000a then 1 else 0

def selfPointerTarget : PointerTarget where
  regions := [{ base := 0x10000, size := 0x1000 }]
  read address size := imageAt selfPointer address.toNat size
  residentRanges base size := [(base, base + UInt64.ofNat size)]
  pointerWidth _ := 8
  byteOrder _ := .little

theorem self_pointer_mapped : ∃ map, buildPointerMap selfPointerTarget {} = .ok map ∧
    map.DistinctSlots ∧ (map.truncated = false → ⟨0x10000, 0x10008⟩ ∈ map.byTarget) := by
  obtain ⟨map, hok, -, hdistinct, -, hall⟩ := @buildPointerMap_complete selfPointerTarget {}
    selfPointer 4096 (fun _ => none) (by decide) (by decide)
    (fun r hr => by rw [List.mem_singleton.mp hr]; exact ⟨by decide, by decide, by decide⟩)
    (List.pairwise_singleton _ _) (Or.inl rfl)
    (fun r hr _ a hlow hhigh hout => by
      rw [List.mem_singleton.mp hr] at hlow hhigh hout
      exact absurd ⟨hlow, hhigh⟩ (hout _ (List.mem_singleton_self _)))
    (fun r hr _ a n _ _ => rfl)
  refine ⟨map, hok, hdistinct, fun h => hall h _ ?_⟩
  exact ⟨_, List.mem_singleton_self _, rfl, 8, .little, rfl, rfl, ⟨1, rfl⟩, by decide, by decide,
    _, List.mem_singleton_self _, rfl, by decide, by decide⟩

end Map

end CheatEngine
