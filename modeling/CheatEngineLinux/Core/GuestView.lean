import CheatEngineLinux.Library.CappedSearch
import CheatEngineLinux.Library.Gather
import CheatEngineLinux.Library.IntervalSweep
import CheatEngineLinux.Scanner.ScanBufferPlain

/-!
# Scanning the memory of an emulated guest

`core/guest_view.hpp`: a region of the emulator's memory is the guest's RAM.  It is searched in
windows, or captured twice and compared.

* `guestScanExact`, `guestSnapshotRegion`, `guestCompareSnapshots` — the operations;
* `exactMatches`, `comparedMatches` — what they are to find, offset by offset;
* `guestScanWindows_run` — **PROVED**: overlapping windows find each match once;
* `guestSnapshotRegion_captures` — **PROVED**: a snapshot holds exactly the readable bytes;
* `guest_scans` — **PROVED**: both scans find what they are to find, the exact one unless the
  offset of its windows wraps around.
-/

namespace CheatEngine

open RecordFile StridedScan CappedSearch IntervalSweep Gather

/-- A region inside the host process, where guest address 0 lives at `base`. -/
structure GuestView where
  base : ℕ
  size : ℕ
  bigEndian : Bool
  base_lt : base < 2 ^ 64
  size_lt : size < 2 ^ 64

/-- `std::numeric_limits<uintptr_t>::max()`. -/
def maxHost : ℕ := 2 ^ 64 - 1

namespace GuestView

def contains (gv : GuestView) (guestAddr n : ℕ) : Bool :=
  decide (0 < n) && decide (guestAddr ≤ gv.size) && decide (n ≤ gv.size - guestAddr)
    && decide (guestAddr ≤ maxHost - gv.base) && decide (n - 1 ≤ maxHost - gv.base - guestAddr)

def toHost (gv : GuestView) (guestAddr : ℕ) : ℕ := (gv.base + guestAddr) % 2 ^ 64

end GuestView

/-- `ProcessHandle::read`: the bytes before the first that cannot be read, an error where there
are none. -/
def processRead (mem : Memory) (address n : ℕ) : Option (List UInt8) :=
  match leading ((List.range n).map fun i => mem (address + i)) with
  | [] => none
  | bytes => some bytes

/-- `GuestView::byteswap`, on the bytes of a value. -/
def byteswap (object : List UInt8) : List UInt8 :=
  if object.length = 2 || object.length = 4 || object.length = 8 then object.reverse else object

def guestBytes (bigEndian : Bool) (object : List UInt8) : List UInt8 :=
  if bigEndian then byteswap object else object

/-- `for (off = start; off < limit; off += alignment)`. -/
def offsetsFrom (start limit alignment : ℕ) : List ℕ :=
  (strideOffsets (limit - start) alignment).map (start + ·)

/-! ### The exact scan -/

/-- The windows are 1 MB apart. -/
def kStride : ℕ := 2 ^ 20

/-- The loop over the windows; without a result where it has not ended after `fuel` of them. -/
def guestScanWindows (gv : GuestView) (mem : Memory) (np : List UInt8) (alignment maxHits : ℕ) :
    ℕ → ℕ → List ℕ → Option (List ℕ × Bool)
  | 0, _, _ => none
  | fuel + 1, off, hits =>
    let next := guestScanWindows gv mem np alignment maxHits fuel ((off + kStride) % 2 ^ 64)
    if (off + np.length) % 2 ^ 64 ≤ gv.size then
      let want := min (kStride + np.length - 1) (gv.size - off)
      match processRead mem (gv.toHost off) want with
      | none => next hits
      | some buf =>
        if buf.length < np.length then next hits
        else
          -- starts in the overlap belong to the next window
          let limit := min kStride (buf.length - np.length + 1)
          let remainder := off % alignment
          let start := if remainder ≠ 0 then alignment - remainder else 0
          let test i := if (buf.drop i).take np.length = np then some (off + i) else none
          match search maxHits test hits (offsetsFrom start limit alignment) with
          | (hits, true) => some (hits, true)
          | (hits, false) => next hits
    else some (hits, false)

/-- The guest addresses that hold a value, and whether there are more than `maxHits`. -/
def guestScanExact (gv : GuestView) (mem : Memory) (t : IntType) (value : ℤ)
    (alignment maxHits fuel : ℕ) : Option (List ℕ × Bool) :=
  if gv.size < t.size || !gv.contains 0 gv.size then some ([], false)
  else
    let alignment := if alignment = 0 then 1 else alignment
    let np := guestBytes gv.bigEndian (leBytes t.size (t.bits value))
    guestScanWindows gv mem np alignment maxHits fuel 0 []

/-! ### Snapshots -/

inductive GuestCompare
  | changed
  | unchanged
  | increased
  | decreased
  deriving Repr, DecidableEq

def guestCompareKeep (o c : ℤ) : GuestCompare → Bool
  | .changed => c != o
  | .unchanged => c == o
  | .increased => decide (o < c)
  | .decreased => decide (c < o)

/-- The bytes of the region, and the stretches of them that were read. -/
structure GuestRegionSnapshot where
  bytes : List UInt8 := []
  readable : List (ℕ × ℕ) := []
  truncated : Bool := false
  deriving Repr, DecidableEq

/-- A new stretch lengthens the last one where it follows it. -/
def addReadable (readable : List (ℕ × ℕ)) (off got : ℕ) : List (ℕ × ℕ) :=
  match readable.getLast? with
  | some last =>
    if last.2 = off then readable.dropLast ++ [(last.1, off + got)]
    else readable ++ [(off, off + got)]
  | none => [(off, off + got)]

/-- Bytes written over a buffer. -/
def overwrite (bytes : List UInt8) (off : ℕ) (data : List UInt8) : List UInt8 :=
  bytes.take off ++ data ++ bytes.drop (off + data.length)

def kPage : ℕ := 4096

/-- The loop of `guestSnapshotRegion`. -/
def guestSnapshotLoop (gv : GuestView) (mem : Memory) (n off : ℕ) (snap : GuestRegionSnapshot) :
    GuestRegionSnapshot :=
  if off < n then
    let data := (processRead mem (gv.toHost off) (min (2 ^ 20) (n - off))).getD []
    if 0 < data.length then
      guestSnapshotLoop gv mem n (off + data.length) { snap with
        bytes := overwrite snap.bytes off data
        readable := addReadable snap.readable off data.length }
    else guestSnapshotLoop gv mem n (off + (kPage - gv.toHost off % kPage)) snap
  else snap
termination_by n - off
decreasing_by
  · rename_i hlt hgot
    exact Nat.sub_lt_sub_left hlt (Nat.lt_add_of_pos_right hgot)
  · have := Nat.mod_lt (gv.toHost off) (show 0 < kPage by decide)
    omega

/-- `std::vector<uint8_t>::max_size()`. -/
def vectorMaxSize : ℕ := 2 ^ 63 - 1

/-- Up to `maxBytes` bytes of the region; none where the buffer has no such size. -/
def guestSnapshotRegion (gv : GuestView) (mem : Memory) (maxBytes : ℕ) :
    Option GuestRegionSnapshot :=
  if !gv.contains 0 gv.size then some {}
  else
    let n := min gv.size maxBytes
    if vectorMaxSize < n then none
    else some (guestSnapshotLoop gv mem n 0
      { bytes := List.replicate n 0, truncated := decide (n < gv.size) })

def guestLoad (t : IntType) (bigEndian : Bool) (bytes : List UInt8) (off : ℕ) : ℤ :=
  t.cast (leNat (guestBytes bigEndian ((bytes.drop off).take t.size)))

/-- The aligned offsets at which two stretches have a whole value below `n`. -/
def commonOffsets (size alignment n : ℕ) (old new : ℕ × ℕ) : List ℕ :=
  let lo := max old.1 new.1
  let hi := min (min old.2 new.2) n
  let off := lo + (alignment - lo % alignment) % alignment
  if size ≤ hi then offsetsFrom off (hi - size + 1) alignment else []

/-- The offsets readable in both snapshots whose values compare, with the current value. -/
def guestCompareSnapshots (t : IntType) (oldS newS : GuestRegionSnapshot) (bigEndian : Bool)
    (op : GuestCompare) (alignment maxHits : ℕ) : List (ℕ × ℤ) × Bool :=
  let alignment := if alignment = 0 then 1 else alignment
  let n := min oldS.bytes.length newS.bytes.length
  let test off :=
    let o := guestLoad t bigEndian oldS.bytes off
    let c := guestLoad t bigEndian newS.bytes off
    if guestCompareKeep o c op then some (off, c) else none
  searchAll maxHits test [] ((sweep Prod.snd Prod.snd oldS.readable newS.readable).map
    fun p => commonOffsets t.size alignment n p.1 p.2)

/-! ### What the scans are to find -/

def aligned (alignment off : ℕ) : Bool := alignment = 0 || off % alignment = 0

namespace GuestView

/-- The value at a guest address, where all its bytes can be read. -/
def valueAt (gv : GuestView) (t : IntType) (mem : Memory) (off : ℕ) : Option ℤ :=
  (readBytes mem (gv.base + off) t.size).map fun bytes =>
    t.read bytes (if gv.bigEndian then .big else .little)

/-- The aligned offsets that hold a value. -/
def exactMatches (gv : GuestView) (t : IntType) (mem : Memory) (value : ℤ) (alignment : ℕ) :
    List ℕ :=
  (List.range (gv.size + 1 - t.size)).filter fun off =>
    aligned alignment off && gv.valueAt t mem off = some value

/-- How much of the region two snapshots have in common: nothing where the region does not lie
in the address space. -/
def commonLength (gv : GuestView) (oldMax newMax : ℕ) : ℕ :=
  if gv.base + gv.size ≤ 2 ^ 64 then min gv.size (min oldMax newMax) else 0

/-- The aligned offsets whose value could be read at both times and compares. -/
def comparedMatches (gv : GuestView) (t : IntType) (old new : Memory) (oldMax newMax : ℕ)
    (op : GuestCompare) (alignment : ℕ) : List (ℕ × ℤ) :=
  (List.range (gv.commonLength oldMax newMax + 1 - t.size)).filterMap fun off =>
    if aligned alignment off then
      match gv.valueAt t old off, gv.valueAt t new off with
      | some o, some c => if guestCompareKeep o c op then some (off, c) else none
      | _, _ => none
    else none

/-- The whole region lies in the address space and can be read. -/
structure Readable (gv : GuestView) (mem : Memory) : Prop where
  fits : gv.base + gv.size ≤ 2 ^ 64
  readable : ∀ k, k < gv.size → (mem (gv.base + k)).isSome

end GuestView

/-- Memory becomes readable by pages. -/
def PageWise (mem : Memory) : Prop :=
  ∀ a b, a / kPage = b / kPage → (mem a).isSome = (mem b).isSome

/-! ### Offsets -/

theorem mem_offsetsFrom {start limit alignment x : ℕ} (ha : 0 < alignment) :
    x ∈ offsetsFrom start limit alignment ↔ start ≤ x ∧ x < limit ∧ alignment ∣ x - start := by
  rw [offsetsFrom, List.mem_map]
  constructor
  · rintro ⟨k, hk, rfl⟩
    obtain ⟨hdvd, hlt⟩ := (mem_strideOffsets ha).mp hk
    exact ⟨Nat.le_add_right _ _, by omega, by rwa [Nat.add_sub_cancel_left]⟩
  · rintro ⟨hle, hlt, hdvd⟩
    exact ⟨x - start, (mem_strideOffsets ha).mpr ⟨hdvd, by omega⟩, Nat.add_sub_cancel' hle⟩

theorem offsetsFrom_sorted (start limit : ℕ) {alignment : ℕ} (ha : 0 < alignment) :
    (offsetsFrom start limit alignment).Pairwise (· < ·) := by
  rw [offsetsFrom, List.pairwise_map]
  exact (strideOffsets_sorted _ ha).imp fun h => Nat.add_lt_add_left h start

/-- The first aligned offset from `lo` on is behind `lo` by less than the alignment. -/
theorem dvd_add_iff {lo pad alignment : ℕ} (hpad : pad < alignment) (hfirst : alignment ∣ lo + pad)
    (x : ℕ) : alignment ∣ lo + x ↔ pad ≤ x ∧ alignment ∣ x - pad := by
  constructor
  · intro hx
    have hle : pad ≤ x := by
      by_contra hlt
      have hdiff := (Nat.dvd_sub hfirst hx)
      have := Nat.le_of_dvd (by omega) hdiff
      omega
    refine ⟨hle, ?_⟩
    have hdiff := Nat.dvd_sub hx hfirst
    rwa [Nat.add_sub_add_left] at hdiff
  · rintro ⟨hle, hx⟩
    have hsum := Nat.dvd_add hfirst hx
    rwa [Nat.add_assoc, Nat.add_sub_cancel' hle] at hsum

theorem dvd_add_pad (lo : ℕ) {alignment : ℕ} (ha : 0 < alignment) :
    alignment ∣ lo + (alignment - lo % alignment) % alignment := by
  have hlt := Nat.mod_lt lo ha
  rw [Nat.dvd_iff_mod_eq_zero, Nat.add_mod, Nat.mod_mod, ← Nat.add_mod,
    show lo = alignment * (lo / alignment) + lo % alignment from (Nat.div_add_mod lo alignment).symm]
  rw [Nat.mul_add_mod, Nat.mod_mod]
  rw [show alignment * (lo / alignment) + lo % alignment + (alignment - lo % alignment)
    = alignment * (lo / alignment + 1) by rw [Nat.mul_add]; omega, Nat.mul_mod_right]

/-- The two spellings of the distance to the first aligned offset. -/
theorem windowStart_eq (off : ℕ) {alignment : ℕ} (ha : 0 < alignment) :
    (if off % alignment ≠ 0 then alignment - off % alignment else 0)
      = (alignment - off % alignment) % alignment := by
  have hlt := Nat.mod_lt off ha
  split
  · exact (Nat.mod_eq_of_lt (by omega)).symm
  · rename_i hzero
    rw [not_not.mp hzero, Nat.sub_zero, Nat.mod_self]

theorem aligned_iff (alignment off : ℕ) :
    aligned alignment off = true ↔ (if alignment = 0 then 1 else alignment) ∣ off := by
  rw [aligned, Bool.or_eq_true, decide_eq_true_iff, decide_eq_true_iff]
  split
  · rename_i hzero
    simp [hzero]
  · rename_i hpos
    rw [or_iff_right hpos, Nat.dvd_iff_mod_eq_zero]

/-! ### Reading -/

theorem readBytes_iff {mem : Memory} {a n : ℕ} {bytes : List UInt8} :
    readBytes mem a n = some bytes ↔ bytes.length = n ∧ ∀ i, i < n → mem (a + i) = bytes[i]? := by
  induction n generalizing a bytes with
  | zero =>
    rw [readBytes, Option.some.injEq, List.length_eq_zero_iff]
    exact ⟨fun h => ⟨h.symm, fun i hi => absurd hi (Nat.not_lt_zero i)⟩, fun h => h.1.symm⟩
  | succ n ih =>
    rw [readBytes]
    constructor
    · intro h
      split at h
      · rename_i b rest hb hrest
        obtain ⟨hlen, hmem⟩ := ih.mp hrest
        rw [← Option.some.inj h]
        refine ⟨by rw [List.length_cons, hlen], fun i hi => ?_⟩
        cases i with
        | zero => exact hb
        | succ i =>
          rw [List.getElem?_cons_succ, ← hmem i (by omega), Nat.add_assoc, Nat.add_comm 1]
      · cases h
    · rintro ⟨hlen, hmem⟩
      cases bytes with
      | nil => cases hlen
      | cons b rest =>
        have hb := hmem 0 (Nat.succ_pos n)
        have hrest : readBytes mem (a + 1) n = some rest := by
          refine ih.mpr ⟨Nat.succ.inj hlen, fun i hi => ?_⟩
          rw [Nat.add_assoc, Nat.add_comm 1, hmem (i + 1) (by omega), List.getElem?_cons_succ]
        rw [Nat.add_zero, List.getElem?_cons_zero] at hb
        rw [hb, hrest]

structure ReadsPrefix (mem : Memory) (address n : ℕ) (bytes : List UInt8) : Prop where
  length_le : bytes.length ≤ n
  holds : ∀ j, j < bytes.length → mem (address + j) = bytes[j]?
  stops : bytes.length < n → mem (address + bytes.length) = none

theorem processRead_spec (mem : Memory) (address n : ℕ) :
    ReadsPrefix mem address n ((processRead mem address n).getD []) := by
  have hbytes : (processRead mem address n).getD []
      = leading ((List.range n).map fun i => mem (address + i)) := by
    rw [processRead]
    split <;> simp_all
  have hlen : ((List.range n).map fun i => mem (address + i)).length = n := by simp
  have hget : ∀ j, j < n →
      ((List.range n).map fun i => mem (address + i))[j]? = some (mem (address + j)) := by
    intro j hj
    rw [List.getElem?_map, List.getElem?_range hj, Option.map_some]
  rw [hbytes]
  set xs := (List.range n).map fun i => mem (address + i)
  have hle := leading_length_le xs
  refine ⟨hlen ▸ hle, fun j hj => ?_, fun hlt => ?_⟩
  · have := getElem?_leading xs j hj
    rw [hget j (by omega)] at this
    exact Option.some.inj this
  · have : xs[(leading xs).length]? = some none := leading_stops (by omega)
    rw [hget _ hlt] at this
    exact Option.some.inj this

/-! ### The values of the guest -/

/-- The integer types of 1, 2, 4 and 8 bytes. -/
def IntType.Whole (t : IntType) : Prop := t.size ∈ [1, 2, 4, 8]

section Values

variable {t : IntType} {gv : GuestView} {mem : Memory}

theorem IntType.Whole.bounds (ht : t.Whole) : 0 < t.size ∧ t.size ≤ 8 := by
  simp only [Whole, List.mem_cons, List.not_mem_nil, or_false] at ht
  omega

/-- Swapping is reversing, for one byte too. -/
theorem byteswap_eq (ht : t.Whole) {object : List UInt8} (h : object.length = t.size) :
    byteswap object = object.reverse := by
  rw [byteswap]
  split
  · rfl
  · rename_i hnot
    simp only [IntType.Whole, List.mem_cons, List.not_mem_nil, or_false, ← h] at ht
    simp only [Bool.or_eq_true, decide_eq_true_eq, not_or] at hnot
    obtain ⟨b, rfl⟩ := List.length_eq_one_iff.mp (show object.length = 1 by omega)
    rfl

theorem guestBytes_eq (ht : t.Whole) {bytes : List UInt8} (h : bytes.length = t.size)
    (bigEndian : Bool) :
    guestBytes bigEndian bytes = scalarBytes t.size bytes (if bigEndian then .big else .little) := by
  have htake : bytes.take t.size = bytes := List.take_of_length_le h.le
  cases bigEndian
  · rw [guestBytes, scalarBytes, htake]
    rfl
  · rw [guestBytes, scalarBytes, htake]
    exact byteswap_eq ht h

theorem valueAt_eq (ht : t.Whole) {bytes : List UInt8} {start off : ℕ}
    (hlen : off + t.size ≤ bytes.length)
    (hmem : ∀ j, j < t.size → mem (gv.base + start + j) = bytes[off + j]?) :
    gv.valueAt t mem start = some (guestLoad t gv.bigEndian bytes off) := by
  have hwindow : ((bytes.drop off).take t.size).length = t.size := by
    rw [List.length_take, List.length_drop]
    omega
  have hread : readBytes mem (gv.base + start) t.size = some ((bytes.drop off).take t.size) := by
    refine readBytes_iff.mpr ⟨hwindow, fun j hj => ?_⟩
    rw [hmem j hj, List.getElem?_take_of_lt hj, List.getElem?_drop]
  rw [GuestView.valueAt, hread, Option.map_some, guestLoad, IntType.read,
    guestBytes_eq ht hwindow]

theorem valueAt_isSome {off : ℕ} :
    (gv.valueAt t mem off).isSome ↔ ∀ j, j < t.size → (mem (gv.base + off + j)).isSome := by
  rw [GuestView.valueAt, Option.isSome_map]
  constructor
  · intro h j hj
    obtain ⟨bytes, hread⟩ := Option.isSome_iff_exists.mp h
    obtain ⟨hlen, hmem⟩ := readBytes_iff.mp hread
    rw [hmem j hj, List.getElem?_eq_getElem (by omega)]
    rfl
  · intro h
    have hread : readBytes mem (gv.base + off) t.size
        = some ((List.range t.size).map fun j => (mem (gv.base + off + j)).getD 0) := by
      refine readBytes_iff.mpr ⟨by simp, fun j hj => ?_⟩
      obtain ⟨b, hb⟩ := Option.isSome_iff_exists.mp (h j hj)
      rw [List.getElem?_map, List.getElem?_range hj, Option.map_some, hb, Option.getD_some]
    rw [hread]
    rfl

end Values

/-! ### The exact scan finds the value -/

section Exact

variable {t : IntType} {gv : GuestView} {mem : Memory} {value : ℤ}

theorem contains_region (h : gv.base + gv.size ≤ 2 ^ 64) (hpos : 0 < gv.size) :
    gv.contains 0 gv.size = true := by
  have hbase := gv.base_lt
  simp only [GuestView.contains, Bool.and_eq_true, decide_eq_true_eq]
  rw [maxHost]
  omega

theorem fits_of_contains (h : gv.contains 0 gv.size = true) : gv.base + gv.size ≤ 2 ^ 64 := by
  have hbase := gv.base_lt
  simp only [GuestView.contains, Bool.and_eq_true, decide_eq_true_eq] at h
  rw [maxHost] at h
  omega

/-- The bytes of the value, as the scan looks for them. -/
def needle (gv : GuestView) (t : IntType) (value : ℤ) : List UInt8 :=
  guestBytes gv.bigEndian (leBytes t.size (t.bits value))

theorem needle_length (ht : t.Whole) : (needle gv t value).length = t.size := by
  rw [needle, guestBytes]
  split
  · rw [byteswap_eq ht (leBytes_length _ _), List.length_reverse, leBytes_length]
  · exact leBytes_length _ _

theorem guestLoad_eq_iff (ht : t.Whole) (hv : t.cast value = value) {bytes : List UInt8} {off : ℕ}
    (hlen : off + t.size ≤ bytes.length) :
    guestLoad t gv.bigEndian bytes off = value ↔
      (bytes.drop off).take t.size = needle gv t value := by
  have hwindow : ((bytes.drop off).take t.size).length = t.size := by
    rw [List.length_take, List.length_drop]
    omega
  have hload : guestLoad t gv.bigEndian bytes off
      = t.read ((bytes.drop off).take t.size) (if gv.bigEndian then .big else .little) := by
    rw [guestLoad, guestBytes_eq ht hwindow, IntType.read]
  rw [hload, IntType.read_eq_iff hwindow.ge _ hv, ← guestBytes_eq ht hwindow, needle, guestBytes,
    guestBytes]
  split
  · rw [byteswap_eq ht hwindow, byteswap_eq ht (leBytes_length _ _), List.reverse_eq_iff]
  · exact Iff.rfl

def isMatch (gv : GuestView) (t : IntType) (mem : Memory) (value : ℤ) (alignment off : ℕ) : Bool :=
  aligned alignment off && gv.valueAt t mem off = some value

/-- The matches below `m`. -/
def matchesBelow (gv : GuestView) (t : IntType) (mem : Memory) (value : ℤ) (alignment m : ℕ) :
    List ℕ :=
  (List.range m).filter (isMatch gv t mem value alignment)

/-- The matches in the window at `off`. -/
theorem matchesBelow_add (alignment off limit : ℕ) :
    matchesBelow gv t mem value alignment (off + limit) =
      matchesBelow gv t mem value alignment off ++ (List.range limit).filterMap fun i =>
        if isMatch gv t mem value alignment (off + i) then some (off + i) else none := by
  rw [matchesBelow, matchesBelow, List.range_add, List.filter_append, ← List.filterMap_eq_filter
    (p := isMatch gv t mem value alignment), List.filterMap_map]
  rfl

theorem alignment_pos (alignment : ℕ) : 0 < if alignment = 0 then 1 else alignment := by
  split <;> omega

theorem window_search (ht : t.Whole) (hv : t.cast value = value) (alignment off : ℕ)
    {buf : List UInt8} {limit : ℕ} (hlimit : limit + t.size ≤ buf.length + 1)
    (hmem : ∀ j, j < buf.length → mem (gv.base + off + j) = buf[j]?) {cap : ℕ} {hits : List ℕ}
    (hhits : hits.length ≤ cap) :
    let a := if alignment = 0 then 1 else alignment
    search cap (fun i => if (buf.drop i).take t.size = needle gv t value then some (off + i) else none)
        hits (offsetsFrom (if off % a ≠ 0 then a - off % a else 0) limit a) =
      capped cap (hits ++ (List.range limit).filterMap fun i =>
        if isMatch gv t mem value alignment (off + i) then some (off + i) else none) := by
  intro a
  have ha : 0 < a := alignment_pos alignment
  have haligned : ∀ i, aligned alignment (off + i) = true ↔
      (a - off % a) % a ≤ i ∧ a ∣ i - (a - off % a) % a := fun i =>
    (aligned_iff alignment (off + i)).trans
      (dvd_add_iff (Nat.mod_lt _ ha) (dvd_add_pad off ha) i)
  have hmatch : ∀ i, i < limit → (gv.valueAt t mem (off + i) = some value ↔
      (buf.drop i).take t.size = needle gv t value) := by
    intro i hi
    have hval : gv.valueAt t mem (off + i) = some (guestLoad t gv.bigEndian buf i) := by
      refine valueAt_eq ht (by omega) fun j hj => ?_
      rw [← hmem (i + j) (by omega)]
      congr 1
      omega
    rw [hval, Option.some.injEq, guestLoad_eq_iff ht hv (by omega)]
  rw [search_eq hhits, windowStart_eq off ha]
  congr 2
  refine filterMap_positions (offsetsFrom_sorted _ _ ha)
    (fun i hi => ((mem_offsetsFrom ha).mp hi).2.1) (fun i hi => ?_) (fun i hi hnot => ?_)
  · obtain ⟨hle, hlt, hdvd⟩ := (mem_offsetsFrom ha).mp hi
    rw [isMatch, (haligned i).mpr ⟨hle, hdvd⟩, Bool.true_and]
    exact if_congr ((hmatch i hlt).symm.trans decide_eq_true_iff.symm) rfl rfl
  · refine if_neg fun hm => hnot ?_
    rw [isMatch, Bool.and_eq_true] at hm
    obtain ⟨hle, hdvd⟩ := (haligned i).mp hm.1
    exact (mem_offsetsFrom ha).mpr ⟨hle, hi, hdvd⟩

theorem processRead_readable (hr : gv.Readable mem) {off n : ℕ} (hpos : 0 < n)
    (hn : off + n ≤ gv.size) : ∃ buf, processRead mem (gv.toHost off) n = some buf ∧
      buf.length = n ∧ ∀ j, j < buf.length → mem (gv.base + off + j) = buf[j]? := by
  have hhost : gv.toHost off = gv.base + off :=
    Nat.mod_eq_of_lt (by have := hr.fits; omega)
  have hspec := processRead_spec mem (gv.base + off) n
  rw [hhost]
  set got := processRead mem (gv.base + off) n
  have hlen : (got.getD []).length = n := by
    refine Nat.le_antisymm hspec.length_le (Nat.not_lt.mp fun hlt => ?_)
    have hsome := hr.readable (off + (got.getD []).length) (by omega)
    rw [← Nat.add_assoc, hspec.stops hlt] at hsome
    cases hsome
  cases hgot : got with
  | none =>
    rw [hgot] at hlen
    exact absurd hlen (Nat.ne_of_lt hpos)
  | some buf =>
    rw [hgot] at hlen hspec
    exact ⟨buf, rfl, hlen, hspec.holds⟩

theorem guestScanWindows_step (ht : t.Whole) (hv : t.cast value = value) (hr : gv.Readable mem)
    (alignment cap fuel : ℕ) {off : ℕ} (hoff : off + t.size ≤ gv.size)
    (hhits : (matchesBelow gv t mem value alignment off).length ≤ cap) :
    guestScanWindows gv mem (needle gv t value) (if alignment = 0 then 1 else alignment) cap
        (fuel + 1) off (matchesBelow gv t mem value alignment off) =
      match capped cap (matchesBelow gv t mem value alignment
        (min (off + kStride) (gv.size + 1 - t.size))) with
      | (hits, true) => some (hits, true)
      | (hits, false) => guestScanWindows gv mem (needle gv t value)
          (if alignment = 0 then 1 else alignment) cap fuel ((off + kStride) % 2 ^ 64) hits := by
  obtain ⟨hpos, hle⟩ := ht.bounds
  have hsize := gv.size_lt
  have hstride : 0 < kStride := by decide
  have hneedle : (needle gv t value).length = t.size := needle_length ht
  obtain ⟨buf, hbuf, hlen, hmem⟩ := @processRead_readable gv mem hr off
    (min (kStride + t.size - 1) (gv.size - off)) (by omega) (by omega)
  rw [guestScanWindows]
  -- the stride is any positive number here
  generalize kStride = stride at *
  simp only [hneedle]
  rw [if_pos (by rw [Nat.mod_eq_of_lt (by omega)]; exact hoff), hbuf]
  dsimp only
  rw [if_neg (by omega), window_search ht hv alignment off (by omega) hmem hhits,
    ← matchesBelow_add]
  have hlimit : off + min stride (buf.length - t.size + 1)
      = min (off + stride) (gv.size + 1 - t.size) := by omega
  rw [hlimit]

theorem guestScanWindows_run (ht : t.Whole) (hv : t.cast value = value) (hr : gv.Readable mem)
    (alignment cap : ℕ) (hsize : t.size ≤ gv.size)
    (hends : gv.size < 2 ^ 64 - kStride + t.size ∨
      cap < (gv.exactMatches t mem value alignment).length) {off : ℕ}
    (hoff : off + t.size ≤ gv.size) (hdvd : kStride ∣ off)
    (hhits : (matchesBelow gv t mem value alignment off).length ≤ cap) :
    ∃ fuel, guestScanWindows gv mem (needle gv t value) (if alignment = 0 then 1 else alignment) cap
        fuel off (matchesBelow gv t mem value alignment off) =
      some (capped cap (gv.exactMatches t mem value alignment)) := by
  have hstride : 0 < kStride := by decide
  have hall : gv.exactMatches t mem value alignment
      = matchesBelow gv t mem value alignment (gv.size + 1 - t.size) := rfl
  induction hrest : gv.size - off using Nat.strong_induction_on generalizing off with
  | _ rest ih =>
    by_cases hfound : (matchesBelow gv t mem value alignment
        (min (off + kStride) (gv.size + 1 - t.size))).length ≤ cap
    · by_cases hlast : gv.size + 1 - t.size ≤ off + kStride
      · -- the last window, and it is not full
        rw [Nat.min_eq_right hlast, ← hall] at hfound
        have hbelow : gv.size < 2 ^ 64 - kStride + t.size := hends.resolve_right (by omega)
        have hnext : off + kStride < 2 ^ 64 := by
          obtain ⟨k, rfl⟩ := hdvd
          rw [kStride] at *
          omega
        refine ⟨2, ?_⟩
        rw [guestScanWindows_step ht hv hr alignment cap 1 hoff hhits, Nat.min_eq_right hlast,
          ← hall, capped_of_le hfound]
        dsimp only
        rw [guestScanWindows, needle_length ht, Nat.mod_eq_of_lt hnext, if_neg]
        have hwrap : off + kStride + t.size < 2 ^ 64 := by
          obtain ⟨k, rfl⟩ := hdvd
          have := ht.bounds
          rw [kStride] at *
          omega
        rw [Nat.mod_eq_of_lt hwrap]
        omega
      · rw [Nat.min_eq_left (by omega)] at hfound
        obtain ⟨fuel, hfuel⟩ := @ih (gv.size - (off + kStride)) (by omega) (off + kStride) (by omega)
          (Nat.dvd_add hdvd (Nat.dvd_refl _)) hfound rfl
        refine ⟨fuel + 1, ?_⟩
        have hnext : off + kStride < 2 ^ 64 := by
          have := gv.size_lt
          omega
        rw [guestScanWindows_step ht hv hr alignment cap fuel hoff hhits,
          Nat.min_eq_left (by omega), capped_of_le hfound]
        dsimp only
        rw [Nat.mod_eq_of_lt hnext, hfuel]
    · -- the window holds a match too many
      refine ⟨1, ?_⟩
      obtain ⟨more, hmore⟩ : ∃ more, gv.exactMatches t mem value alignment = matchesBelow gv t mem
          value alignment (min (off + kStride) (gv.size + 1 - t.size)) ++ more := by
        have := @matchesBelow_add t gv mem value alignment
          (min (off + kStride) (gv.size + 1 - t.size))
          (gv.size + 1 - t.size - min (off + kStride) (gv.size + 1 - t.size))
        rw [Nat.add_sub_cancel' (Nat.min_le_right _ _)] at this
        exact ⟨_, hall.trans this⟩
      rw [guestScanWindows_step ht hv hr alignment cap 0 hoff hhits, hmore,
        capped_append (Nat.not_le.mp hfound), capped, decide_eq_true (Nat.not_le.mp hfound)]

theorem guestScanWindows_wraps {np : List UInt8} (hnp : np.length ≤ 8)
    (hbig : 2 ^ 64 - kStride + np.length ≤ gv.size) (alignment cap fuel : ℕ) {off : ℕ}
    (hdvd : kStride ∣ off) (hoff : off < 2 ^ 64) (hits : List ℕ) {result : List ℕ × Bool}
    (h : guestScanWindows gv mem np alignment cap fuel off hits = some result) :
    result.2 = true := by
  induction fuel generalizing off hits with
  | zero => cases h
  | succ fuel ih =>
    have hnext : kStride ∣ (off + kStride) % 2 ^ 64 :=
      (Nat.dvd_mod_iff (by decide)).mpr (Nat.dvd_add hdvd (Nat.dvd_refl _))
    have hlt : (off + kStride) % 2 ^ 64 < 2 ^ 64 := Nat.mod_lt _ (by decide)
    have hinside : (off + np.length) % 2 ^ 64 ≤ gv.size := by
      obtain ⟨k, rfl⟩ := hdvd
      rw [kStride] at *
      omega
    rw [guestScanWindows] at h
    simp only [if_pos hinside] at h
    split at h
    · exact ih hnext hlt _ h
    · split at h
      · exact ih hnext hlt _ h
      · split at h
        · rw [← Option.some.inj h]
        · exact ih hnext hlt _ h

theorem guestScanExact_iff (ht : t.Whole) (hv : t.cast value = value) (hr : gv.Readable mem)
    (alignment cap : ℕ) :
    (∃ fuel, guestScanExact gv mem t value alignment cap fuel =
        some (capped cap (gv.exactMatches t mem value alignment))) ↔
      gv.size < 2 ^ 64 - kStride + t.size ∨
        cap < (gv.exactMatches t mem value alignment).length := by
  obtain ⟨hpos, hle⟩ := ht.bounds
  by_cases hsize : t.size ≤ gv.size
  · have hguard : (decide (gv.size < t.size) || !gv.contains 0 gv.size) = false := by
      rw [contains_region hr.fits (by omega), decide_eq_false (by omega)]
      rfl
    have hscan : ∀ fuel, guestScanExact gv mem t value alignment cap fuel =
        guestScanWindows gv mem (needle gv t value) (if alignment = 0 then 1 else alignment) cap
          fuel 0 [] := fun fuel => by
      rw [guestScanExact, hguard]
      rfl
    simp only [hscan]
    constructor
    · rintro ⟨fuel, hfuel⟩
      by_contra hnot
      rw [not_or, Nat.not_lt, Nat.not_lt] at hnot
      have hcut := guestScanWindows_wraps (by rw [needle_length ht]; exact hle)
        (by rw [needle_length ht]; exact hnot.1) _ cap fuel (Nat.dvd_zero _) (by decide) [] hfuel
      rw [capped_of_le hnot.2] at hcut
      cases hcut
    · exact fun hends => @guestScanWindows_run t gv mem value ht hv hr alignment cap hsize hends 0
        (by omega) (Nat.dvd_zero _) (Nat.zero_le _)
  · -- too small a region holds no value
    have hnone : gv.exactMatches t mem value alignment = [] := by
      rw [GuestView.exactMatches, show gv.size + 1 - t.size = 0 by omega]
      rfl
    refine iff_of_true ⟨0, ?_⟩ (Or.inl ?_)
    · rw [guestScanExact, decide_eq_true (by omega), hnone, Bool.true_or, if_pos rfl,
        capped_of_le (Nat.zero_le _)]
    · rw [kStride]
      omega

end Exact

/-! ### Snapshots hold the readable bytes -/

section Snapshots

variable {gv : GuestView} {mem : Memory} {n off : ℕ} {snap : GuestRegionSnapshot}

/-- An offset in one of the stretches. -/
def Covered (readable : List (ℕ × ℕ)) (k : ℕ) : Prop := ∃ r ∈ readable, r.1 ≤ k ∧ k < r.2

/-- What the snapshot holds of the first `off` of `n` bytes. -/
structure Captures (gv : GuestView) (mem : Memory) (n off : ℕ) (snap : GuestRegionSnapshot) :
    Prop where
  length : snap.bytes.length = n
  separated : Separated Prod.fst Prod.snd snap.readable
  stretch : ∀ r ∈ snap.readable, r.1 < r.2 ∧ r.2 ≤ off
  covers : ∀ k, k < off → k < n → (Covered snap.readable k ↔ (mem (gv.base + k)).isSome)
  holds : ∀ k, k < off → k < n → ∀ b, mem (gv.base + k) = some b → snap.bytes[k]? = some b

theorem addReadable_cases {readable : List (ℕ × ℕ)} {off : ℕ} (got : ℕ)
    (hstretch : ∀ r ∈ readable, r.1 < r.2 ∧ r.2 ≤ off)
    (hsep : Separated Prod.fst Prod.snd readable) :
    (∃ init first, readable = init ++ [(first, off)] ∧
        addReadable readable off got = init ++ [(first, off + got)]) ∨
      ((∀ r ∈ readable, r.2 < off) ∧
        addReadable readable off got = readable ++ [(off, off + got)]) := by
  rcases List.eq_nil_or_concat' readable with rfl | ⟨init, last, rfl⟩
  · exact Or.inr ⟨nofun, rfl⟩
  · rw [addReadable, List.getLast?_concat]
    dsimp only
    split
    · rename_i heq
      exact Or.inl ⟨init, last.1, by rw [← heq], by rw [List.dropLast_concat]⟩
    · rename_i hne
      have hlast := hstretch last List.mem_concat_self
      have hlt : last.2 < off := Nat.lt_of_le_of_ne hlast.2 hne
      refine Or.inr ⟨fun r hr => ?_, rfl⟩
      rcases List.mem_append.mp hr with hr | hr
      · have hgap : r.2 < last.1 :=
          (List.pairwise_append.mp hsep).2.2 r hr last (List.mem_singleton_self last)
        omega
      · rw [List.mem_singleton.mp hr]
        exact hlt

theorem addReadable_spec {readable : List (ℕ × ℕ)} {off got : ℕ} (hgot : 0 < got)
    (hstretch : ∀ r ∈ readable, r.1 < r.2 ∧ r.2 ≤ off)
    (hsep : Separated Prod.fst Prod.snd readable) :
    Separated Prod.fst Prod.snd (addReadable readable off got) ∧
      (∀ r ∈ addReadable readable off got, r.1 < r.2 ∧ r.2 ≤ off + got) ∧
      ∀ k, Covered (addReadable readable off got) k ↔
        Covered readable k ∨ off ≤ k ∧ k < off + got := by
  rcases addReadable_cases got hstretch hsep with ⟨init, first, rfl, hadd⟩ | ⟨hlt, hadd⟩
  · rw [hadd]
    obtain ⟨hinit, -, hgap⟩ := List.pairwise_append.mp hsep
    have hlast := hstretch (first, off) List.mem_concat_self
    refine ⟨List.pairwise_append.mpr ⟨hinit, List.pairwise_singleton _ _, fun r hr s hs => ?_⟩,
      fun r hr => ?_, fun k => ?_⟩
    · rw [List.mem_singleton.mp hs]
      exact hgap r hr (first, off) (List.mem_singleton_self _)
    · rcases List.mem_append.mp hr with hr | hr
      · have := hstretch r (List.mem_append_left _ hr)
        omega
      · rw [List.mem_singleton.mp hr]
        exact ⟨by dsimp only at hlast ⊢; omega, Nat.le_refl _⟩
    · simp only [Covered, List.mem_append, List.mem_singleton, or_and_right, exists_or,
        exists_eq_left]
      dsimp only at hlast
      rw [or_assoc]
      exact or_congr Iff.rfl (by omega)
  · rw [hadd]
    refine ⟨List.pairwise_append.mpr ⟨hsep, List.pairwise_singleton _ _, fun r hr s hs => ?_⟩,
      fun r hr => ?_, fun k => ?_⟩
    · rw [List.mem_singleton.mp hs]
      exact hlt r hr
    · rcases List.mem_append.mp hr with hr | hr
      · have := hstretch r hr
        omega
      · rw [List.mem_singleton.mp hr]
        exact ⟨by dsimp only; omega, Nat.le_refl _⟩
    · simp only [Covered, List.mem_append, List.mem_singleton, or_and_right, exists_or,
        exists_eq_left]

theorem overwrite_length {bytes data : List UInt8} {off : ℕ}
    (h : off + data.length ≤ bytes.length) : (overwrite bytes off data).length = bytes.length := by
  rw [overwrite, List.length_append, List.length_append, List.length_take, List.length_drop]
  omega

theorem overwrite_before {bytes data : List UInt8} {off k : ℕ} (hk : k < off)
    (h : off ≤ bytes.length) : (overwrite bytes off data)[k]? = bytes[k]? := by
  rw [overwrite, List.append_assoc, List.getElem?_append_left
    (by rw [List.length_take]; omega), List.getElem?_take_of_lt hk]

theorem overwrite_inside {bytes data : List UInt8} {off j : ℕ} (hj : j < data.length)
    (h : off ≤ bytes.length) : (overwrite bytes off data)[off + j]? = data[j]? := by
  have htake : (bytes.take off).length = off := by
    rw [List.length_take]
    omega
  rw [overwrite, List.append_assoc, List.getElem?_append_right (by omega), htake,
    Nat.add_sub_cancel_left, List.getElem?_append_left hj]

theorem Captures.read (h : Captures gv mem n off snap) {data : List UInt8} (hdata : 0 < data.length)
    (hfit : off + data.length ≤ n)
    (hmem : ∀ j, j < data.length → mem (gv.base + off + j) = data[j]?) :
    Captures gv mem n (off + data.length) { snap with
      bytes := overwrite snap.bytes off data
      readable := addReadable snap.readable off data.length } := by
  obtain ⟨hsep, hstretch, hcovered⟩ := addReadable_spec hdata h.stretch h.separated
  have hlen := h.length
  have hbehind : ∀ k, off ≤ k → ¬ Covered snap.readable k := by
    rintro k hk ⟨r, hr, -, hlt⟩
    have := (h.stretch r hr).2
    omega
  refine ⟨(overwrite_length (by omega)).trans hlen, hsep, hstretch, fun k hk hkn => ?_,
    fun k hk hkn b hb => ?_⟩
  · rw [hcovered]
    by_cases hold : k < off
    · rw [← h.covers k hold hkn]
      exact or_iff_left (by omega)
    · refine iff_of_true (Or.inr ⟨by omega, hk⟩) ?_
      have := hmem (k - off) (by omega)
      rw [Nat.add_assoc, Nat.add_sub_cancel' (by omega : off ≤ k),
        List.getElem?_eq_getElem (by omega)] at this
      rw [this]
      rfl
  · by_cases hold : k < off
    · exact (overwrite_before hold (by omega)).trans (h.holds k hold hkn b hb)
    · have := hmem (k - off) (by omega)
      rw [Nat.add_assoc, Nat.add_sub_cancel' (by omega : off ≤ k), hb] at this
      have hinside := @overwrite_inside snap.bytes data off (k - off) (by omega) (by omega)
      rw [Nat.add_sub_cancel' (by omega : off ≤ k)] at hinside
      exact hinside.trans this.symm

/-- A page that cannot be read is passed. -/
theorem Captures.skip (h : Captures gv mem n off snap) {step : ℕ}
    (hnone : ∀ k, off ≤ k → k < off + step → mem (gv.base + k) = none) :
    Captures gv mem n (off + step) snap := by
  refine ⟨h.length, h.separated, fun r hr => ?_, fun k hk hkn => ?_, fun k hk hkn b hb => ?_⟩
  · have := h.stretch r hr
    omega
  · by_cases hold : k < off
    · exact h.covers k hold hkn
    · refine iff_of_false ?_ (by rw [hnone k (by omega) hk]; exact Bool.false_ne_true)
      rintro ⟨r, hr, -, hlt⟩
      have := (h.stretch r hr).2
      omega
  · by_cases hold : k < off
    · exact h.holds k hold hkn b hb
    · rw [hnone k (by omega) hk] at hb
      cases hb

theorem guestSnapshotLoop_captures (hfits : gv.base + gv.size ≤ 2 ^ 64) (hn : n ≤ gv.size)
    (hpages : PageWise mem) (h : Captures gv mem n off snap) :
    ∃ e, n ≤ e ∧ Captures gv mem n e (guestSnapshotLoop gv mem n off snap) := by
  fun_induction guestSnapshotLoop gv mem n off snap with
  | case1 off snap hlt data hgot ih =>
    have hhost : gv.toHost off = gv.base + off := Nat.mod_eq_of_lt (by omega)
    have hspec := processRead_spec mem (gv.toHost off) (min (2 ^ 20) (n - off))
    have hle : data.length ≤ min (2 ^ 20) (n - off) := hspec.length_le
    exact ih (h.read hgot (by omega) fun j hj => by rw [← hhost]; exact hspec.holds j hj)
  | case2 off snap hlt data hgot ih =>
    have hhost : gv.toHost off = gv.base + off := Nat.mod_eq_of_lt (by omega)
    have hspec := processRead_spec mem (gv.toHost off) (min (2 ^ 20) (n - off))
    have hempty : data.length = 0 := by omega
    have hfirst : mem (gv.base + off) = none := by
      have := hspec.stops (by rw [hempty]; omega)
      rwa [hempty, Nat.add_zero, hhost] at this
    refine ih (h.skip fun k hk hkstep => ?_)
    -- the rest of the page is as unreadable as its first byte
    have hpage : (gv.base + k) / kPage = (gv.base + off) / kPage := by
      rw [hhost, kPage] at hkstep
      rw [kPage]
      omega
    have := hpages _ _ hpage
    rw [hfirst] at this
    exact Option.isSome_eq_false_iff.mp this |> Option.isNone_iff_eq_none.mp
  | case3 off snap hnot => exact ⟨off, by omega, h⟩

def GuestView.snapshotLength (gv : GuestView) (maxBytes : ℕ) : ℕ :=
  if gv.base + gv.size ≤ 2 ^ 64 then min gv.size maxBytes else 0

theorem guestSnapshotRegion_captures {maxBytes : ℕ} (hpages : PageWise mem)
    (h : guestSnapshotRegion gv mem maxBytes = some snap) :
    ∃ e, gv.snapshotLength maxBytes ≤ e ∧
      Captures gv mem (gv.snapshotLength maxBytes) e snap := by
  rw [guestSnapshotRegion] at h
  split at h
  · rename_i hnot
    have hzero : gv.snapshotLength maxBytes = 0 := by
      rw [GuestView.snapshotLength]
      split
      · rename_i hfits
        by_contra hne
        rw [contains_region hfits (by omega)] at hnot
        cases hnot
      · rfl
    rw [hzero, ← Option.some.inj h]
    exact ⟨0, Nat.le_refl _, rfl, List.Pairwise.nil, nofun, nofun, nofun⟩
  · rename_i hcontains
    have hfits := fits_of_contains (by simpa using hcontains)
    have hlength : gv.snapshotLength maxBytes = min gv.size maxBytes := if_pos hfits
    dsimp only at h
    split at h
    · cases h
    · rw [hlength, ← Option.some.inj h]
      exact guestSnapshotLoop_captures hfits (Nat.min_le_left _ _) hpages
        ⟨List.length_replicate, List.Pairwise.nil, nofun, nofun, nofun⟩

theorem Captures.valueAt {t : IntType} {e : ℕ} (ht : t.Whole) (h : Captures gv mem n e snap)
    (he : n ≤ e) {x : ℕ} (hx : x + t.size ≤ n)
    (hread : ∀ k, x ≤ k → k < x + t.size → Covered snap.readable k) :
    gv.valueAt t mem x = some (guestLoad t gv.bigEndian snap.bytes x) := by
  refine valueAt_eq ht (by rw [h.length]; exact hx) fun j hj => ?_
  have hsome := (h.covers (x + j) (by omega) (by omega)).mp (hread (x + j) (by omega) (by omega))
  obtain ⟨b, hb⟩ := Option.isSome_iff_exists.mp hsome
  rw [Nat.add_assoc, hb, h.holds (x + j) (by omega) (by omega) b hb]

theorem Captures.in_one {t : IntType} {e : ℕ} (ht : t.Whole) (h : Captures gv mem n e snap)
    (he : n ≤ e) {x : ℕ} (hx : x + t.size ≤ n) (hvalue : (gv.valueAt t mem x).isSome) :
    ∃ r ∈ snap.readable, r.1 ≤ x ∧ x + t.size ≤ r.2 := by
  refine stretch_in_one h.separated ht.bounds.1 fun k hk hlt => ?_
  refine (h.covers k (by omega) (by omega)).mpr ?_
  have := valueAt_isSome.mp hvalue (k - x) (by omega)
  rwa [Nat.add_assoc, Nat.add_sub_cancel' hk] at this

end Snapshots

/-! ### Comparing snapshots -/

section Compare

variable {t : IntType} {gv : GuestView}

theorem mem_commonOffsets {size alignment n x : ℕ} (ha : 0 < alignment)
    (p q : ℕ × ℕ) : x ∈ commonOffsets size alignment n p q ↔
      alignment ∣ x ∧ (p.1 ≤ x ∧ x + size ≤ p.2) ∧ (q.1 ≤ x ∧ x + size ≤ q.2) ∧ x + size ≤ n := by
  have hpad := dvd_add_iff (Nat.mod_lt _ ha) (dvd_add_pad (max p.1 q.1) ha) (x - max p.1 q.1)
  set pad := (alignment - max p.1 q.1 % alignment) % alignment
  rw [commonOffsets]
  split
  · rename_i hfit
    rw [mem_offsetsFrom ha]
    constructor
    · rintro ⟨hle, hlt, hdvd⟩
      have hx := hpad.mpr ⟨by omega, by rwa [Nat.sub_sub]⟩
      rw [Nat.add_sub_cancel' (by omega : max p.1 q.1 ≤ x)] at hx
      exact ⟨hx, by omega, by omega, by omega⟩
    · rintro ⟨hx, hp, hq, hn⟩
      rw [Nat.add_sub_cancel' (by omega : max p.1 q.1 ≤ x)] at hpad
      obtain ⟨hle, hdvd⟩ := hpad.mp hx
      exact ⟨by omega, by omega, by rwa [Nat.sub_sub] at hdvd⟩
  · refine iff_of_false List.not_mem_nil ?_
    rintro ⟨-, hp, hq, hn⟩
    omega

/-- The comparison finds what it is to find. -/
theorem guestCompareSnapshots_eq (ht : t.Whole) {oldMem newMem : Memory} {oldMax newMax : ℕ}
    {oldS newS : GuestRegionSnapshot} (hold : PageWise oldMem) (hnew : PageWise newMem)
    (holdS : guestSnapshotRegion gv oldMem oldMax = some oldS)
    (hnewS : guestSnapshotRegion gv newMem newMax = some newS) (op : GuestCompare)
    (alignment cap : ℕ) :
    guestCompareSnapshots t oldS newS gv.bigEndian op alignment cap =
      capped cap (gv.comparedMatches t oldMem newMem oldMax newMax op alignment) := by
  obtain ⟨e, he, hcold⟩ := guestSnapshotRegion_captures hold holdS
  obtain ⟨e', he', hcnew⟩ := guestSnapshotRegion_captures hnew hnewS
  have hcommon : gv.commonLength oldMax newMax
      = min (gv.snapshotLength oldMax) (gv.snapshotLength newMax) := by
    simp only [GuestView.commonLength, GuestView.snapshotLength]
    split <;> omega
  set a := if alignment = 0 then 1 else alignment with haDef
  have ha : 0 < a := alignment_pos alignment
  obtain ⟨hpos, -⟩ := ht.bounds
  set n := min (gv.snapshotLength oldMax) (gv.snapshotLength newMax) with hn
  have hmem : ∀ p q x, x ∈ commonOffsets t.size a n p q ↔
      a ∣ x ∧ (p.1 ≤ x ∧ x + t.size ≤ p.2) ∧ (q.1 ≤ x ∧ x + t.size ≤ q.2) ∧ x + t.size ≤ n :=
    fun p q x => mem_commonOffsets ha p q
  set positions := ((sweep Prod.snd Prod.snd oldS.readable newS.readable).flatMap
    fun p => commonOffsets t.size a n p.1 p.2) with hpositions
  have hsorted : positions.Pairwise (· < ·) := by
    refine flatMap_sweep_ascending hcold.separated.ascending hcnew.separated.ascending _ id
      (fun p _ => ?_) (fun p _ x hx => ?_)
    · rw [commonOffsets]
      split
      · exact offsetsFrom_sorted _ _ ha
      · exact List.Pairwise.nil
    · obtain ⟨-, hp, hq, -⟩ := (hmem _ _ _).mp hx
      exact ⟨⟨hp.1, by simp only [id]; omega⟩, hq.1, by simp only [id]; omega⟩
  rw [guestCompareSnapshots, searchAll_eq (Nat.zero_le _), List.nil_append, ← List.flatMap_def,
    hcold.length, hcnew.length, ← haDef, ← hn, ← hpositions, GuestView.comparedMatches, hcommon]
  congr 1
  refine filterMap_positions hsorted (fun x hx => ?_) (fun x hx => ?_) (fun x hx hnot => ?_)
  · obtain ⟨p, -, hx⟩ := List.mem_flatMap.mp hx
    have := (hmem _ _ _).mp hx
    omega
  · obtain ⟨p, hp, hx⟩ := List.mem_flatMap.mp hx
    obtain ⟨hdvd, hp1, hp2, hfit⟩ := (hmem _ _ _).mp hx
    obtain ⟨hmem1, hmem2⟩ := sweep_mem hp
    rw [if_pos ((aligned_iff alignment x).mpr hdvd),
      hcold.valueAt ht he (by omega) fun k hk hlt => ⟨p.1, hmem1, by omega, by omega⟩,
      hcnew.valueAt ht he' (by omega) fun k hk hlt => ⟨p.2, hmem2, by omega, by omega⟩]
  · by_contra hfound
    split at hfound
    · rename_i haligned
      split at hfound
      · rename_i o c hvo hvc
        have hfit : x + t.size ≤ n := by omega
        obtain ⟨r, hr, hr1, hr2⟩ := hcold.in_one ht he (by omega) (x := x) (by rw [hvo]; rfl)
        obtain ⟨s, hs, hs1, hs2⟩ := hcnew.in_one ht he' (by omega) (x := x) (by rw [hvc]; rfl)
        refine hnot (List.mem_flatMap.mpr ⟨(r, s), mem_sweep hcold.separated.ascending
          hcnew.separated.ascending hr hs (x := x)
          ⟨⟨hr1, by dsimp only; omega⟩, hs1, by dsimp only; omega⟩, ?_⟩)
        exact (hmem _ _ _).mpr ⟨(aligned_iff alignment x).mp haligned, ⟨hr1, hr2⟩, ⟨hs1, hs2⟩, hfit⟩
      · exact hfound rfl
    · exact hfound rfl

end Compare

/-- The scans of a guest against what they are to find: the exact scan of a readable region does so
if and only if it comes to its end before the offset of the windows wraps around; the comparison of
two snapshots always does. -/
theorem guest_scans (gv : GuestView) {t : IntType} (ht : t.Whole) (alignment maxHits : ℕ) :
    (∀ mem value, gv.Readable mem → t.cast value = value →
      ((∃ fuel, guestScanExact gv mem t value alignment maxHits fuel =
          some (capped maxHits (gv.exactMatches t mem value alignment))) ↔
        gv.size < 2 ^ 64 - kStride + t.size ∨
          maxHits < (gv.exactMatches t mem value alignment).length)) ∧
    ∀ oldMem newMem oldMax newMax oldS newS op, PageWise oldMem → PageWise newMem →
      guestSnapshotRegion gv oldMem oldMax = some oldS →
      guestSnapshotRegion gv newMem newMax = some newS →
      guestCompareSnapshots t oldS newS gv.bigEndian op alignment maxHits =
        capped maxHits (gv.comparedMatches t oldMem newMem oldMax newMax op alignment) :=
  ⟨fun _ _ hr hv => guestScanExact_iff ht hv hr alignment maxHits,
    fun _ _ _ _ _ _ op hold hnew holdS hnewS =>
      guestCompareSnapshots_eq ht hold hnew holdS hnewS op alignment maxHits⟩

/-- A guest of 16 bytes, at the start of a page. -/
def smallGuest : GuestView := ⟨4096, 16, true, by decide, by decide⟩

def onePageGuest (byte : ℕ → UInt8) : Memory := fun a => if a / kPage = 1 then some (byte a) else none

theorem onePage_pageWise (byte : ℕ → UInt8) : PageWise (onePageGuest byte) := by
  intro a b h
  rw [onePageGuest, onePageGuest, h]
  split <;> rfl

/-- The big-endian value 1 is found at 0 and 8; of those, 8 has changed later. -/
theorem small_guest_scans :
    (∃ fuel, guestScanExact smallGuest (onePageGuest fun a => if a % 8 = 3 then 1 else 0) .int32 1 4 8
      fuel = some ([0, 8], false)) ∧
    ∃ oldS newS, guestSnapshotRegion smallGuest (onePageGuest fun a => if a % 8 = 3 then 1 else 0) 64
        = some oldS ∧
      guestSnapshotRegion smallGuest (onePageGuest fun a => if a % 16 = 3 then 1 else 0) 64
        = some newS ∧
      guestCompareSnapshots .int32 oldS newS true .decreased 4 8 = ([(8, 0)], false) := by
  have hint : IntType.Whole .int32 := by simp [IntType.Whole, IntType.int32]
  have hreadable : smallGuest.Readable (onePageGuest fun a => if a % 8 = 3 then 1 else 0) :=
    ⟨by decide, by decide⟩
  obtain ⟨hexact, hcompare⟩ := guest_scans smallGuest hint 4 8
  obtain ⟨oldS, holdS⟩ := Option.isSome_iff_exists.mp
    (show (guestSnapshotRegion smallGuest (onePageGuest fun a => if a % 8 = 3 then 1 else 0) 64).isSome
      by decide)
  obtain ⟨newS, hnewS⟩ := Option.isSome_iff_exists.mp
    (show (guestSnapshotRegion smallGuest (onePageGuest fun a => if a % 16 = 3 then 1 else 0) 64).isSome
      by decide)
  refine ⟨?_, oldS, newS, holdS, hnewS, ?_⟩
  · obtain ⟨fuel, hfuel⟩ := (hexact _ 1 hreadable (by decide)).mpr (Or.inl (by decide))
    exact ⟨fuel, hfuel.trans (by decide)⟩
  · refine (hcompare _ _ 64 64 oldS newS .decreased (onePage_pageWise _) (onePage_pageWise _)
      holdS hnewS).trans ?_
    decide

/-- A guest that fills the address space, and a value that is not in it. -/
theorem windows_wrap_around :
    ¬ ∃ fuel, guestScanExact ⟨0, 2 ^ 64 - 1, false, by decide, by decide⟩
      (fun a => if a < 2 ^ 64 then some 0 else none) .uint8 1 1 (2 ^ 22) fuel =
        some (capped (2 ^ 22) (GuestView.exactMatches ⟨0, 2 ^ 64 - 1, false, by decide, by decide⟩
          .uint8 (fun a => if a < 2 ^ 64 then some 0 else none) 1 1)) := by
  have hbyte : IntType.Whole .uint8 := by simp [IntType.Whole, IntType.uint8]
  have hnone : GuestView.exactMatches ⟨0, 2 ^ 64 - 1, false, by decide, by decide⟩ .uint8
      (fun a => if a < 2 ^ 64 then some 0 else none) 1 1 = [] := by
    rw [GuestView.exactMatches, List.filter_eq_nil_iff]
    intro off hoff
    have hlt : off < 2 ^ 64 := by
      have := List.mem_range.mp hoff
      simp only [IntType.uint8] at this
      omega
    have hvalue : GuestView.valueAt ⟨0, 2 ^ 64 - 1, false, by decide, by decide⟩ .uint8
        (fun a => if a < 2 ^ 64 then some 0 else none) off = some 0 := by
      have hread : readBytes (fun a => if a < 2 ^ 64 then some 0 else none) off 1 = some [0] := by
        rw [readBytes, if_pos hlt]
        rfl
      rw [GuestView.valueAt]
      dsimp only
      rw [Nat.zero_add]
      exact (congrArg _ hread).trans (by decide)
    rw [hvalue]
    simp
  rw [guestScanExact_iff hbyte (by decide) ⟨by decide, fun k hk => ?_⟩, hnone]
  · decide
  · have hlt : 0 + k < 2 ^ 64 := by
      dsimp only at hk ⊢
      omega
    dsimp only
    rw [if_pos hlt]
    rfl

end CheatEngine
