import CheatEngineLinux.Library.RecordFile
import CheatEngineLinux.Library.RingBuffer

/-!
# Draining perf rings

`drainPerfBranches` and `drainPerfAux` (`src/debug/perf_ring.cpp`) read what the kernel published
in the two rings of a perf mapping, and hand the space back.

* `dataRing`, `copyRing`, `drainPerfBranches`, `drainPerfAux`: the source.
* `Records`, `branchEntries`: the records of the stream, and what a sample stands for.
* **PROVED `copyRing_eq_window`**: counters that wrap at `2 ^ 64` follow the stream.
* **PROVED `drainLoop_eq`**: the walk takes the records that the stream begins with.
* **PROVED `perf_rings_drained`**: what both functions return, and where they leave the tails.
-/

namespace CheatEngine.PerfRing

open RecordFile RingBuffer

/-! ### The rings -/

/-- The fields of the control page that are read. -/
structure PerfEventMmapPage where
  dataHead : UInt64
  dataTail : UInt64
  dataOffset : UInt64 := 0
  dataSize : UInt64 := 0
  auxHead : UInt64 := 0
  auxTail : UInt64 := 0
  auxOffset : UInt64 := 0
  auxSize : UInt64 := 0
  deriving Repr, DecidableEq

/-- The pages that the kernel mapped; the first of them is the control page. -/
structure Mapping where
  address : ℕ
  control : PerfEventMmapPage
  bytes : List UInt8

def sizeofControl : ℕ := 1088
def alignofControl : ℕ := 8
def sizeofHeader : ℕ := 8
def sizeofBranchEntry : ℕ := 24
def perfRecordSample : ℕ := 9

def hasSingleBit (n : ℕ) : Bool := 2 ^ n.log2 == n

structure DataRing where
  offset : ℕ
  bytes : List UInt8

/-- Offset and size of the ring; old control pages do not report them. -/
def layout (m : Mapping) (pageSize : ℕ) : UInt64 × UInt64 :=
  if m.control.dataOffset = 0 ∧ m.control.dataSize = 0 then
    (UInt64.ofNat pageSize, UInt64.ofNat (m.bytes.length - pageSize))
  else (m.control.dataOffset, m.control.dataSize)

def dataRing (m : Mapping) (pageSize : ℕ) : Option DataRing :=
  if pageSize < sizeofControl ∨ ¬hasSingleBit pageSize ∨ m.bytes.length < pageSize ∨
      m.address % alignofControl ≠ 0 then none
  else
    let offset := (layout m pageSize).1.toNat
    let size := (layout m pageSize).2.toNat
    if offset < pageSize ∨ offset % pageSize ≠ 0 ∨ m.bytes.length < offset ∨ size = 0 ∨
        ¬hasSingleBit size ∨ m.bytes.length - offset < size ∨ size % pageSize ≠ 0 then none
    else some ⟨offset, (m.bytes.drop offset).take size⟩

def copyRing (ring : List UInt8) (position : UInt64) (count : ℕ) : List UInt8 :=
  let offset := position.toNat % ring.length
  let first := min count (ring.length - offset)
  (ring.drop offset).take first ++ ring.take (count - first)

/-! ### Branch records -/

structure LbrEntry where
  source : UInt64
  target : UInt64
  mispred : Bool
  predicted : Bool
  deriving Repr, DecidableEq

structure Header where
  type : ℕ
  size : ℕ

def Header.ofBytes (bytes : List UInt8) : Header :=
  ⟨leNat (bytes.take 4), leNat ((bytes.drop 6).take 2)⟩

/-- A `perf_branch_entry`. -/
def LbrEntry.ofBytes (bytes : List UInt8) : LbrEntry :=
  let flags := leNat ((bytes.drop 16).take 8)
  { source := UInt64.ofNat (leNat (bytes.take 8))
    target := UInt64.ofNat (leNat ((bytes.drop 8).take 8))
    mispred := flags.testBit 0
    predicted := flags.testBit 1 }

/-- The entries of a record that begins at `tail`. -/
def recordEntries (ring : List UInt8) (tail : UInt64) (header : Header) : List LbrEntry :=
  if header.type = perfRecordSample ∧ sizeofHeader + 8 ≤ header.size then
    let count := leNat (copyRing ring (tail + UInt64.ofNat sizeofHeader) 8)
    let payload := header.size - sizeofHeader - 8
    if count ≤ payload / sizeofBranchEntry then
      (List.range count).map fun i => LbrEntry.ofBytes
        (copyRing ring (tail + UInt64.ofNat (sizeofHeader + 8 + i * sizeofBranchEntry))
          sizeofBranchEntry)
    else []
  else []

def headerAt (ring : List UInt8) (tail : UInt64) : Header :=
  Header.ofBytes (copyRing ring tail sizeofHeader)

/-- The walk over the records: the tail that it comes to, what is left, and the entries. -/
def drainLoop (ring : List UInt8) (head tail : UInt64) (available : ℕ) (out : List LbrEntry) :
    UInt64 × ℕ × List LbrEntry :=
  if _h : sizeofHeader ≤ available then
    if _hsize : (headerAt ring tail).size < sizeofHeader ∨ available < (headerAt ring tail).size ∨
        ring.length < (headerAt ring tail).size then (head, available, out)
    else
      drainLoop ring head (tail + UInt64.ofNat (headerAt ring tail).size)
        (available - (headerAt ring tail).size)
        (out ++ recordEntries ring tail (headerAt ring tail))
  else (tail, available, out)
termination_by available
decreasing_by
  simp only [sizeofHeader, not_or, Nat.not_lt] at *
  omega

def drainPerfBranches (m : Mapping) (pageSize : ℕ) : List LbrEntry × PerfEventMmapPage :=
  match dataRing m pageSize with
  | none => ([], m.control)
  | some ring =>
    let head := m.control.dataHead
    let available := (head - m.control.dataTail).toNat
    if ring.bytes.length < available then ([], { m.control with dataTail := head })
    else
      let (tail, left, out) := drainLoop ring.bytes head m.control.dataTail available []
      let tail := if 0 < left ∧ left < sizeofHeader then head else tail
      (out, { m.control with dataTail := tail })

def auxAccepted (m : Mapping) (ring : DataRing) (auxiliary : List UInt8) (pageSize : ℕ) : Bool :=
  !(auxiliary.isEmpty || !hasSingleBit auxiliary.length || auxiliary.length % pageSize != 0) &&
    !(m.control.auxSize.toNat != auxiliary.length ||
      decide (m.control.auxOffset.toNat < ring.offset + ring.bytes.length) ||
      m.control.auxOffset.toNat % pageSize != 0)

def drainPerfAux (m : Mapping) (auxiliary : List UInt8) (pageSize : ℕ) :
    List UInt8 × PerfEventMmapPage :=
  match dataRing m pageSize with
  | none => ([], m.control)
  | some ring =>
    if auxAccepted m ring auxiliary pageSize then
      let head := m.control.auxHead
      let tail := m.control.auxTail
      let available := (head - tail).toNat
      let out := if available ≤ auxiliary.length then copyRing auxiliary tail available else []
      -- the notifications in the data ring are released with the bytes
      (out, { m.control with auxTail := head, dataTail := m.control.dataHead })
    else ([], m.control)

/-! ### The records of the stream -/

def records : Framing UInt8 where
  header := sizeofHeader
  size := fun header => (Header.ofBytes header).size
  header_pos := by decide

/-- What a record stands for: a sample with a count that fits it, for its entries. -/
def branchEntries (r : List UInt8) : List LbrEntry :=
  let count := leNat ((r.drop 8).take 8)
  if (Header.ofBytes (r.take 8)).type = perfRecordSample ∧ 16 ≤ r.length ∧
      count ≤ (r.length - 16) / 24 then
    (List.range count).map fun i => LbrEntry.ofBytes ((r.drop (16 + i * 24)).take 24)
  else []

def published (ring : List UInt8) (head tail : UInt64) : List UInt8 :=
  window ring tail.toNat (head - tail).toNat

/-! ### Copies -/

theorem dvd_of_hasSingleBit {n : ℕ} (h : hasSingleBit n = true) (hn : n < 2 ^ 64) :
    n ∣ 2 ^ 64 := by
  have heq : 2 ^ n.log2 = n := by simpa [hasSingleBit] using h
  have hlog : n.log2 ≤ 64 := by
    by_contra hlt
    have hle : 2 ^ 64 ≤ 2 ^ n.log2 := Nat.pow_le_pow_right (by decide) (by omega)
    omega
  rw [← heq]
  exact Nat.pow_dvd_pow 2 hlog

theorem dataRing_dvd {m : Mapping} {pageSize : ℕ} {ring : DataRing}
    (h : dataRing m pageSize = some ring) : ring.bytes.length ∣ 2 ^ 64 := by
  unfold dataRing at h
  split at h
  · cases h
  · dsimp only at h
    split at h
    · cases h
    · rename_i hlayout
      simp only [not_or, not_not, Nat.not_lt] at hlayout
      obtain ⟨-, -, -, -, hbit, hfits, -⟩ := hlayout
      cases h
      rw [List.length_take, List.length_drop, Nat.min_eq_left hfits]
      exact dvd_of_hasSingleBit hbit (UInt64.toNat_lt _)

section copies

variable {ring : List UInt8} {tail : UInt64} {available : ℕ}

theorem copyRing_eq_window (h : available ≤ ring.length) :
    copyRing ring tail available = window ring tail.toNat available :=
  copy_eq_window h

theorem window_add (hdvd : ring.length ∣ 2 ^ 64) (k n : ℕ) :
    window ring (tail + UInt64.ofNat k).toNat n = window ring (tail.toNat + k) n := by
  rw [UInt64.toNat_add, UInt64.toNat_ofNat', Nat.add_mod_mod, window_mod hdvd]

theorem copyRing_add (hdvd : ring.length ∣ 2 ^ 64) (h : available ≤ ring.length) {k n : ℕ}
    (hk : k + n ≤ available) : copyRing ring (tail + UInt64.ofNat k) n =
      ((window ring tail.toNat available).drop k).take n := by
  rw [copyRing_eq_window (by omega), window_add hdvd, window_sub hk h]

theorem headerAt_eq (h : available ≤ ring.length) (hheader : sizeofHeader ≤ available) :
    headerAt ring tail =
      Header.ofBytes ((window ring tail.toNat available).take sizeofHeader) := by
  rw [headerAt, copyRing_eq_window (by omega), window_take hheader]

theorem recordEntries_eq (hdvd : ring.length ∣ 2 ^ 64) (h : available ≤ ring.length)
    (hheader : sizeofHeader ≤ (headerAt ring tail).size)
    (hsize : (headerAt ring tail).size ≤ available) :
    recordEntries ring tail (headerAt ring tail) =
      branchEntries ((window ring tail.toNat available).take (headerAt ring tail).size) := by
  rw [window_take hsize]
  generalize hn : (headerAt ring tail).size = n at hheader hsize
  have hring : n ≤ ring.length := by omega
  have hlength : (window ring tail.toNat n).length = n := window_length hring
  have htype : (Header.ofBytes ((window ring tail.toNat n).take 8)).type =
      (headerAt ring tail).type := by
    rw [headerAt_eq hring hheader]
    rfl
  unfold recordEntries branchEntries
  dsimp only
  simp only [hn, hlength, htype, Nat.sub_sub, sizeofHeader, sizeofBranchEntry, Nat.reduceAdd]
  by_cases hsample : (headerAt ring tail).type = perfRecordSample ∧ 16 ≤ n
  · have hcount : copyRing ring (tail + UInt64.ofNat 8) 8 =
        ((window ring tail.toNat n).drop 8).take 8 := copyRing_add hdvd hring hsample.2
    rw [if_pos hsample, hcount]
    by_cases hfits : leNat (((window ring tail.toNat n).drop 8).take 8) ≤ (n - 16) / 24
    · rw [if_pos hfits, if_pos ⟨hsample.1, hsample.2, hfits⟩]
      refine List.map_congr_left fun i hi => ?_
      rw [List.mem_range] at hi
      rw [copyRing_add hdvd hring (by omega)]
    · rw [if_neg hfits, if_neg fun hall => hfits hall.2.2]
  · rw [if_neg hsample, if_neg fun hall => hsample ⟨hall.1, hall.2.1⟩]

end copies

/-! ### The walk -/

/-- The tail that is published after a walk. -/
def settled (head : UInt64) (walk : UInt64 × ℕ × List LbrEntry) : UInt64 :=
  if 0 < walk.2.1 ∧ walk.2.1 < sizeofHeader then head else walk.1

/-- **The walk takes the records that the stream begins with**, and comes to the head. -/
theorem drainLoop_eq {ring : List UInt8} (hdvd : ring.length ∣ 2 ^ 64) {head tail : UInt64}
    {available : ℕ} (h : available ≤ ring.length) (hhead : tail + UInt64.ofNat available = head)
    (out : List LbrEntry) :
    (drainLoop ring head tail available out).2.2 =
      out ++ (records.frames (window ring tail.toNat available)).flatMap branchEntries ∧
    settled head (drainLoop ring head tail available out) = head := by
  induction available using Nat.strong_induction_on generalizing tail out with
  | _ available ih =>
    have hlength : (window ring tail.toNat available).length = available := window_length h
    rw [drainLoop]
    split
    · rename_i hheader
      have hsize : records.size ((window ring tail.toNat available).take records.header) =
          (headerAt ring tail).size := by
        rw [headerAt_eq h hheader]
        rfl
      split
      · -- a damaged record ends the walk
        rename_i hdamaged
        have hnone : ¬records.Begins (window ring tail.toNat available) := by
          rintro ⟨-, hmin, hmax⟩
          rw [hsize] at hmin hmax
          rw [hlength] at hmax
          have hmin' : sizeofHeader ≤ (headerAt ring tail).size := hmin
          omega
        rw [Framing.frames_of_not_begins hnone]
        refine ⟨by simp, ?_⟩
        unfold settled
        exact ite_self head
      · rename_i hwhole
        simp only [not_or, Nat.not_lt] at hwhole
        obtain ⟨hmin, hmax, -⟩ := hwhole
        have hbegins : records.Begins (window ring tail.toNat available) := by
          refine ⟨?_, ?_, ?_⟩
          · rw [hlength]
            exact hheader
          · rw [hsize]
            exact hmin
          · rw [hsize, hlength]
            exact hmax
        have hpos : 0 < sizeofHeader := by decide
        have hnext : tail + UInt64.ofNat (headerAt ring tail).size +
            UInt64.ofNat (available - (headerAt ring tail).size) = head := by
          rw [← hhead, UInt64.add_assoc, ← UInt64.ofNat_add, Nat.add_sub_cancel' hmax]
        obtain ⟨hout, hsettled⟩ := ih (available - (headerAt ring tail).size) (by omega)
          (by omega) hnext (out ++ recordEntries ring tail (headerAt ring tail))
        refine ⟨?_, hsettled⟩
        rw [hout, window_add hdvd, Framing.frames_of_begins hbegins, hsize, List.flatMap_cons,
          window_drop hmax h, recordEntries_eq hdvd h hmin hmax, List.append_assoc]
    · rename_i hshort
      have hnone : ¬records.Begins (window ring tail.toNat available) := by
        rintro ⟨hheader, -, -⟩
        rw [hlength] at hheader
        exact hshort hheader
      rw [Framing.frames_of_not_begins hnone]
      refine ⟨by simp, ?_⟩
      unfold settled
      dsimp only
      split
      · rfl
      · rename_i hleft
        obtain rfl : available = 0 := by omega
        simpa using hhead

/-! ### Both functions -/

theorem drainPerfBranches_spec {m : Mapping} {pageSize : ℕ} {ring : DataRing}
    (hring : dataRing m pageSize = some ring) : drainPerfBranches m pageSize =
      (if ring.bytes.length < (m.control.dataHead - m.control.dataTail).toNat then []
        else (records.frames (published ring.bytes m.control.dataHead m.control.dataTail)).flatMap
          branchEntries,
        { m.control with dataTail := m.control.dataHead }) := by
  unfold drainPerfBranches
  simp only [hring]
  split
  · rfl
  · rename_i hfits
    have hhead : m.control.dataTail +
        UInt64.ofNat (m.control.dataHead - m.control.dataTail).toNat = m.control.dataHead := by
      rw [UInt64.ofNat_toNat, UInt64.add_comm, UInt64.sub_add_cancel]
    obtain ⟨hout, hsettled⟩ :=
      drainLoop_eq (dataRing_dvd hring) (Nat.not_lt.mp hfits) hhead []
    rw [hout, List.nil_append]
    exact congrArg (fun tail => (_, { m.control with dataTail := tail })) hsettled

/-- **Draining loses and invents nothing.** -/
theorem perf_rings_drained {m : Mapping} {pageSize : ℕ} {ring : DataRing}
    (hring : dataRing m pageSize = some ring) (auxiliary : List UInt8) :
    (drainPerfBranches m pageSize).2 = { m.control with dataTail := m.control.dataHead } ∧
    ((m.control.dataHead - m.control.dataTail).toNat ≤ ring.bytes.length →
      ∃ leading,
        records.Leading (published ring.bytes m.control.dataHead m.control.dataTail) leading ∧
        (drainPerfBranches m pageSize).1 = leading.flatMap branchEntries) ∧
    (ring.bytes.length < (m.control.dataHead - m.control.dataTail).toNat →
      (drainPerfBranches m pageSize).1 = []) ∧
    (auxAccepted m ring auxiliary pageSize = true →
      ((m.control.auxHead - m.control.auxTail).toNat ≤ auxiliary.length →
        (drainPerfAux m auxiliary pageSize).1 =
          published auxiliary m.control.auxHead m.control.auxTail) ∧
      (auxiliary.length < (m.control.auxHead - m.control.auxTail).toNat →
        (drainPerfAux m auxiliary pageSize).1 = []) ∧
      (drainPerfAux m auxiliary pageSize).2 =
        { m.control with auxTail := m.control.auxHead, dataTail := m.control.dataHead }) ∧
    (auxAccepted m ring auxiliary pageSize = false →
      drainPerfAux m auxiliary pageSize = ([], m.control)) := by
  rw [drainPerfBranches_spec hring]
  refine ⟨rfl, fun hfits => ?_, fun hlost => if_pos hlost, fun haccepted => ?_, fun hrefused => ?_⟩
  · exact ⟨_, Framing.frames_leading _, if_neg (Nat.not_lt.mpr hfits)⟩
  · unfold drainPerfAux
    simp only [hring, haccepted, if_true]
    refine ⟨fun hfits => ?_, fun hlost => if_neg (Nat.not_le.mpr hlost), trivial⟩
    rw [if_pos hfits]
    exact copyRing_eq_window hfits
  · unfold drainPerfAux
    simp only [hring, hrefused, Bool.false_eq_true, if_false]

/-- A control page, and a ring in which a counter has just wrapped. -/
def wrapped : Mapping where
  address := 0
  control := ⟨4, 18446744073709551612, 0, 0, 1, 0, 0, 0⟩
  bytes := List.replicate 4096 0

theorem dataRing_wrapped : dataRing wrapped 2048 = some ⟨2048, List.replicate 2048 0⟩ := by
  have hlayout : layout wrapped 2048 = (2048, 2048) := by
    simp [-List.reduceReplicate, layout, wrapped]
  have hbit : hasSingleBit 2048 = true := by decide +kernel
  unfold dataRing
  rw [hlayout]
  simp [-List.reduceReplicate, hbit, sizeofControl, alignofControl, wrapped]

theorem perf_rings_drained_wrapped :
    (drainPerfBranches wrapped 2048).2 = { wrapped.control with dataTail := 4 } :=
  (perf_rings_drained dataRing_wrapped []).1

/-- A buffer that the control page does not describe is not read. -/
theorem undescribed_buffer_not_drained : ∃ (m : Mapping) (ring : DataRing) (auxiliary : List UInt8),
    dataRing m 2048 = some ring ∧
      (m.control.auxHead - m.control.auxTail).toNat ≤ auxiliary.length ∧
      (drainPerfAux m auxiliary 2048).1 ≠
        published auxiliary m.control.auxHead m.control.auxTail := by
  refine ⟨wrapped, _, List.replicate 2048 0, dataRing_wrapped, ?_, ?_⟩
  · simp [-List.reduceReplicate, wrapped]
  have hrefused : (drainPerfAux wrapped (List.replicate 2048 0) 2048).1 = [] := by
    unfold drainPerfAux
    rw [dataRing_wrapped]
    simp [-List.reduceReplicate, auxAccepted, wrapped]
  have hpublished : (published (List.replicate 2048 0) 1 0).length = 1 := by
    simp [-List.reduceReplicate, published]
  intro heq
  rw [hrefused] at heq
  have hlength := congrArg List.length heq
  rw [show wrapped.control.auxHead = 1 from rfl, show wrapped.control.auxTail = 0 from rfl,
    hpublished] at hlength
  cases hlength

end CheatEngine.PerfRing
