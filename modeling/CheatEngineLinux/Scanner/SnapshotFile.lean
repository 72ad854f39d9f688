import CheatEngineLinux.Library.ByteReader
import CheatEngineLinux.Scanner.Snapshot

/-!
# Snapshot files

`Snapshot::save` and `Snapshot::load` (`scanner/snapshot.cpp`): a magic, a count, and for each
region its base, size, protection and bytes, with their number.

* `readSnapshot_save` — **PROVED**: what `load` accepts it reads back as it was saved;
* `load_cut` — **PROVED**: no truncation of a saved file is loaded;
* `snapshot_files` — **PROVED**: captured regions that lie in the address space survive, a
  failed load changes nothing, and what a load accepts is in bounds.
-/

namespace CheatEngine.Snapshot

open RecordFile ByteReader

/-- `CESNAP01` -/
def snapshotMagic : List UInt8 := [0x43, 0x45, 0x53, 0x4e, 0x41, 0x50, 0x30, 0x31]

/-! ### Writing -/

def regionBytes (r : SnapshotRegion) : List UInt8 :=
  leBytes 8 r.base.toNat ++ (leBytes 8 r.size.toNat ++ (leBytes 4 r.protection.toNat ++
    (leBytes 4 r.bytes.length ++ r.bytes)))

/-- The file, unless its counts do not fit 32 bits. -/
def save (snap : Snapshot) : Option (List UInt8) :=
  if snap.regions.length > 2 ^ 32 - 1 then none
  else if snap.regions.any fun r => decide (r.bytes.length > 2 ^ 32 - 1) then none
  else some (snapshotMagic ++ (leBytes 4 snap.regions.length ++ snap.regions.flatMap regionBytes))

/-! ### Reading -/

/-- A region does not have more bytes than its size, nor run past the top of the address space. -/
def regionInBounds (base size byteCount : ℕ) : Bool :=
  !(decide (byteCount > size) || (decide (size ≠ 0) && decide (size - 1 > top - base)))

def readRegionBytes (base size prot byteCount : ℕ) : Reader SnapshotRegion := do
  requireLeft byteCount "truncated bytes"
  require (regionInBounds base size byteCount) "invalid region bounds"
  let bytes ← readAll byteCount "truncated bytes"
  return ⟨UInt64.ofNat base, UInt64.ofNat size, UInt32.ofNat prot, bytes⟩

def readRegion : Reader SnapshotRegion := do
  let base ← readNat 8 "truncated record"
  let size ← readNat 8 "truncated record"
  let prot ← readNat 4 "truncated record"
  let byteCount ← readNat 4 "truncated record"
  readRegionBytes base size prot byteCount

/-- The regions of a file.  Each record takes 24 bytes at least. -/
def readSnapshot : Reader (List SnapshotRegion) := do
  let magic ← readAll 8 "bad magic"
  require (magic == snapshotMagic) "bad magic"
  let count ← readNat 4 "truncated header"
  require (decide (count ≤ 2 ^ 24)) "region count too large"
  requireLeft (count * 24) "truncated records"
  readMany readRegion count

def load (snap : Snapshot) (file : Option (List UInt8)) : Snapshot × Except String Unit :=
  match file with
  | none => (snap, .error "open failed")
  | some contents =>
    match readSnapshot contents with
    | .error message => (snap, .error message)
    | .ok (regions, _) => ({ snap with regions }, .ok ())

/-! ### Reading what was written -/

/-- A region that `load` accepts. -/
def InBounds (r : SnapshotRegion) : Prop :=
  regionInBounds r.base.toNat r.size.toNat r.bytes.length = true

/-- A region's number of bytes fits its field. -/
def Counted (r : SnapshotRegion) : Prop := r.bytes.length < 2 ^ 32

theorem readRegionBytes_reads (r : SnapshotRegion) :
    (InBounds r → Reads (readRegionBytes r.base.toNat r.size.toNat r.protection.toNat
        r.bytes.length) r.bytes r) ∧
      Decides (readRegionBytes r.base.toNat r.size.toNat r.protection.toNat r.bytes.length)
        r.bytes := by
  have hdata : Reads (do
      let bytes ← readAll r.bytes.length "truncated bytes"
      return (⟨UInt64.ofNat r.base.toNat, UInt64.ofNat r.size.toNat,
        UInt32.ofNat r.protection.toNat, bytes⟩ : SnapshotRegion)) r.bytes r := by
    have hr : (⟨UInt64.ofNat r.base.toNat, UInt64.ofNat r.size.toNat,
        UInt32.ofNat r.protection.toNat, r.bytes⟩ : SnapshotRegion) = r := by
      rw [UInt64.ofNat_toNat, UInt64.ofNat_toNat, UInt32.ofNat_toNat]
    have hread := (reads_readAll (n := r.bytes.length) rfl "truncated bytes").mapped fun bytes =>
      (⟨UInt64.ofNat r.base.toNat, UInt64.ofNat r.size.toNat, UInt32.ofNat r.protection.toNat,
        bytes⟩ : SnapshotRegion)
    rw [hr] at hread
    exact hread
  refine ⟨fun hin => ?_, ?_⟩
  · exact (hdata.checked hin "invalid region bounds").requireLeft le_rfl "truncated bytes"
  · exact (Decides.checked _ "invalid region bounds" (Or.inl ⟨r, hdata⟩)).requireLeft le_rfl
      "truncated bytes"

theorem readRegion_reads {r : SnapshotRegion} (hcount : Counted r) (hin : InBounds r) :
    Reads readRegion (regionBytes r) r :=
  (reads_readNat (k := 8) r.base.toNat_lt "truncated record").bind
    ((reads_readNat (k := 8) r.size.toNat_lt "truncated record").bind
      ((reads_readNat (k := 4) r.protection.toNat_lt "truncated record").bind
        ((reads_readNat (k := 4) hcount "truncated record").bind
          ((readRegionBytes_reads r).1 hin))))

theorem readRegion_decides {r : SnapshotRegion} (hcount : Counted r) :
    Decides readRegion (regionBytes r) :=
  (reads_readNat (k := 8) r.base.toNat_lt "truncated record").bind_decides
    ((reads_readNat (k := 8) r.size.toNat_lt "truncated record").bind_decides
      ((reads_readNat (k := 4) r.protection.toNat_lt "truncated record").bind_decides
        ((reads_readNat (k := 4) hcount "truncated record").bind_decides
          (readRegionBytes_reads r).2)))

theorem records_length (regions : List SnapshotRegion) :
    regions.length * 24 ≤ (regions.flatMap regionBytes).length := by
  induction regions with
  | nil => rfl
  | cons r regions ih =>
    rw [List.length_cons, List.flatMap_cons, List.length_append, regionBytes]
    simp only [List.length_append, leBytes_length]
    omega

/-- What `save` asks for. -/
theorem save_eq_some {snap : Snapshot} {file : List UInt8} (h : save snap = some file) :
    snap.regions.length < 2 ^ 32 ∧ (∀ r ∈ snap.regions, Counted r) ∧
      file = snapshotMagic ++
        (leBytes 4 snap.regions.length ++ snap.regions.flatMap regionBytes) := by
  unfold save at h
  split at h
  · cases h
  · split at h
    · cases h
    · rename_i hlen hany
      refine ⟨by omega, fun r hr => ?_, (Option.some.inj h).symm⟩
      have := mt (fun hbig => List.any_eq_true.mpr ⟨r, hr, hbig⟩) hany
      rw [decide_eq_true_eq] at this
      rw [Counted]
      omega

theorem save_isSome {snap : Snapshot} (hlen : snap.regions.length < 2 ^ 32)
    (hcount : ∀ r ∈ snap.regions, Counted r) : save snap = some (snapshotMagic ++
      (leBytes 4 snap.regions.length ++ snap.regions.flatMap regionBytes)) := by
  have hany : (snap.regions.any fun r => decide (r.bytes.length > 2 ^ 32 - 1)) = false := by
    rw [List.any_eq_false]
    intro r hr hbig
    have := hcount r hr
    rw [decide_eq_true_eq] at hbig
    rw [Counted] at this
    omega
  rw [save, if_neg (by omega), if_neg (by rw [hany]; exact Bool.false_ne_true)]

/-- What `load` accepts it reads back as it was saved. -/
theorem readSnapshot_save {snap : Snapshot} (hlen : snap.regions.length ≤ 2 ^ 24)
    (hcount : ∀ r ∈ snap.regions, Counted r) (hin : ∀ r ∈ snap.regions, InBounds r) :
    Reads readSnapshot (snapshotMagic ++ (leBytes 4 snap.regions.length ++
      snap.regions.flatMap regionBytes)) snap.regions := by
  have hrecords : Reads (readMany readRegion snap.regions.length)
      (snap.regions.flatMap regionBytes) snap.regions :=
    Reads.readMany fun r hr => readRegion_reads (hcount r hr) (hin r hr)
  refine (reads_readAll (n := 8) rfl "bad magic").bind ?_
  refine Reads.checked (by decide) "bad magic" ?_
  refine (reads_readNat (k := 4) (by omega) "truncated header").bind ?_
  refine Reads.checked (decide_eq_true hlen) _ ?_
  exact hrecords.requireLeft (records_length _) "truncated records"

theorem readSnapshot_decides {snap : Snapshot} (hlen : snap.regions.length < 2 ^ 32)
    (hcount : ∀ r ∈ snap.regions, Counted r) :
    Decides readSnapshot (snapshotMagic ++ (leBytes 4 snap.regions.length ++
      snap.regions.flatMap regionBytes)) := by
  have hrecords : Decides (readMany readRegion snap.regions.length)
      (snap.regions.flatMap regionBytes) :=
    Decides.readMany fun r hr => readRegion_decides (hcount r hr)
  refine (reads_readAll (n := 8) rfl "bad magic").bind_decides ?_
  refine Decides.checked _ "bad magic" ?_
  refine (reads_readNat (k := 4) (by omega) "truncated header").bind_decides ?_
  refine Decides.checked _ _ ?_
  exact hrecords.requireLeft (records_length _) "truncated records"

theorem load_cut {snap : Snapshot} {file : List UInt8} (hsave : save snap = some file)
    {cut : List UInt8} (hcut : cut <+: file) (hne : cut ≠ file) (before : Snapshot) :
    ∃ message, load before (some cut) = (before, .error message) := by
  obtain ⟨hlen, hcount, rfl⟩ := save_eq_some hsave
  obtain ⟨message, h⟩ := (readSnapshot_decides hlen hcount).strictPrefix hcut hne
  exact ⟨message, by rw [load, h]⟩

/-! ### What a load accepts -/

theorem inBounds_iff {base size byteCount : ℕ} : regionInBounds base size byteCount = true ↔
    byteCount ≤ size ∧ (size = 0 ∨ size - 1 ≤ top - base) := by
  rw [regionInBounds, Bool.not_eq_true', Bool.or_eq_false_iff, Bool.and_eq_false_iff,
    decide_eq_false_iff_not, decide_eq_false_iff_not, decide_eq_false_iff_not]
  omega

theorem readRegion_ok {s rest : List UInt8} {r : SnapshotRegion}
    (h : readRegion s = .ok (r, rest)) : InBounds r := by
  obtain ⟨base, s1, hbase, h⟩ := ByteReader.bind_eq_ok.mp h
  obtain ⟨size, s2, hsize, h⟩ := ByteReader.bind_eq_ok.mp h
  obtain ⟨prot, s3, -, h⟩ := ByteReader.bind_eq_ok.mp h
  obtain ⟨byteCount, s4, -, h⟩ := ByteReader.bind_eq_ok.mp h
  obtain ⟨_, s5, -, h⟩ := ByteReader.bind_eq_ok.mp h
  obtain ⟨_, s6, hin, h⟩ := ByteReader.bind_eq_ok.mp h
  obtain ⟨bytes, s7, hbytes, h⟩ := ByteReader.bind_eq_ok.mp h
  cases h
  have hbase : base < 2 ^ 64 := readNat_lt hbase
  have hsize : size < 2 ^ 64 := readNat_lt hsize
  rw [InBounds, UInt64.toNat_ofNat_of_lt' hbase, UInt64.toNat_ofNat_of_lt' hsize,
    (readAll_eq_ok.mp hbytes).1]
  exact require_eq_ok hin

theorem load_atomic (snap : Snapshot) (file : Option (List UInt8)) :
    (∀ message, (load snap file).2 = .error message → (load snap file).1 = snap) ∧
      ((load snap file).2 = .ok () → ∀ r ∈ (load snap file).1.regions, InBounds r) := by
  cases file with
  | none => exact ⟨fun _ _ => rfl, nofun⟩
  | some contents =>
    rw [load]
    cases hread : readSnapshot contents with
    | error message => exact ⟨fun _ _ => rfl, nofun⟩
    | ok result =>
      refine ⟨nofun, fun _ => ?_⟩
      obtain ⟨_, s1, -, h⟩ := ByteReader.bind_eq_ok.mp hread
      obtain ⟨_, s2, -, h⟩ := ByteReader.bind_eq_ok.mp h
      obtain ⟨count, s3, -, h⟩ := ByteReader.bind_eq_ok.mp h
      obtain ⟨_, s4, -, h⟩ := ByteReader.bind_eq_ok.mp h
      obtain ⟨_, s5, -, h⟩ := ByteReader.bind_eq_ok.mp h
      exact readMany_forall (P := InBounds) (fun _ _ _ hr => readRegion_ok hr) h

/-! ### Captured regions -/

def LiveRegion.InSpace (r : LiveRegion) : Prop := r.base.toNat + r.size.toNat ≤ 2 ^ 64

theorem captureLoop_inBounds {proc : Process} {budget : ℕ} {snap : Snapshot}
    {live : List LiveRegion} (hlive : ∀ r ∈ live, r.InSpace)
    (hsnap : ∀ r ∈ snap.regions, InBounds r) :
    ∀ r ∈ (captureLoop proc budget snap live).regions, InBounds r := by
  induction live generalizing budget snap with
  | nil => exact hsnap
  | cons r live ih =>
    obtain ⟨hr, hrest⟩ := List.forall_mem_cons.mp hlive
    have hkept : ∀ r' ∈ (if min r.size.toNat budget < r.size.toNat then
        { snap with truncated := true } else snap).regions, InBounds r' := by
      split <;> exact hsnap
    rw [captureLoop]
    split
    · exact ih hrest hsnap
    · split
      · exact hsnap
      · dsimp only
        split
        · exact ih hrest hkept
        · rename_i bytes hread
          split
          · exact ih hrest hkept
          · refine ih hrest fun r' hr' => ?_
            rcases List.mem_append.mp hr' with hr' | hr'
            · exact hkept r' hr'
            · rw [List.mem_singleton.mp hr', InBounds, inBounds_iff]
              have hle := proc.read_le _ _ _ hread
              have hbase := r.base.toNat_lt
              rw [LiveRegion.InSpace] at hr
              simp only [top]
              omega

theorem recapture_inBounds (snap : Snapshot) (proc : Process) :
    ∀ r ∈ (snap.recapture proc).regions, InBounds r := by
  intro part hpart
  obtain ⟨saved, -, hpart⟩ := List.mem_flatMap.mp hpart
  obtain ⟨r, -, hpart⟩ := List.mem_filterMap.mp hpart
  rw [recapturePart] at hpart
  split at hpart
  · cases hpart
  · split at hpart
    · cases hpart
    · rename_i lo hi hoverlap
      split at hpart
      · cases hpart
      · rename_i bytes hread
        split at hpart
        · cases hpart
        · have hle := proc.read_le _ _ _ hread
          have hsaved := saved.base.toNat_lt
          have hr := r.base.toNat_lt
          rw [overlap] at hoverlap
          split at hoverlap
          · rename_i hlt
            simp only [Option.some.injEq, Prod.mk.injEq, clampedEnd] at hoverlap hlt
            cases hpart
            have htop : top = 2 ^ 64 - 1 := rfl
            have hlo : lo < 2 ^ 64 := by omega
            have hsize : hi - lo < 2 ^ 64 := by omega
            rw [InBounds, inBounds_iff, UInt64.toNat_ofNat_of_lt' hlo,
              UInt64.toNat_ofNat_of_lt' hsize]
            exact ⟨hle, by omega⟩
          · cases hoverlap

/-- Captured regions that lie in the address space survive their file; no truncation of a file is
loaded; and any load either changes nothing or leaves regions in bounds. -/
theorem snapshot_files :
    (∀ (proc : Process) (snap : Snapshot), (∀ r ∈ proc.queryRegions, r.InSpace) →
      ((∃ maxBytes, snap = capture proc maxBytes) ∨ ∃ earlier, snap = recapture earlier proc) →
      snap.regions.length ≤ 2 ^ 24 → (∀ r ∈ snap.regions, r.bytes.length < 2 ^ 32) →
      ∃ file, save snap = some file ∧
        ∀ before, load before (some file) = ({ before with regions := snap.regions }, .ok ())) ∧
    (∀ (snap : Snapshot) (file cut : List UInt8), save snap = some file → cut <+: file →
      cut ≠ file → ∀ before, ∃ message, load before (some cut) = (before, .error message)) ∧
    ∀ (before : Snapshot) (file : Option (List UInt8)),
      (∀ message, (load before file).2 = .error message → (load before file).1 = before) ∧
      ((load before file).2 = .ok () → ∀ r ∈ (load before file).1.regions,
        r.bytes.length ≤ r.size.toNat ∧
          (r.size.toNat = 0 ∨ r.size.toNat - 1 ≤ top - r.base.toNat)) := by
  refine ⟨fun proc snap hlive hsnap hlen hcount => ?_,
    fun snap file cut hsave hcut hne before => load_cut hsave hcut hne before,
    fun before file => ⟨(load_atomic before file).1, fun hok r hr => ?_⟩⟩
  · have hin : ∀ r ∈ snap.regions, InBounds r := by
      rcases hsnap with ⟨maxBytes, rfl⟩ | ⟨earlier, rfl⟩
      · exact captureLoop_inBounds hlive fun r hr => absurd hr List.not_mem_nil
      · exact recapture_inBounds earlier proc
    have hread := (readSnapshot_save hlen hcount hin).exact []
    rw [List.append_nil] at hread
    exact ⟨_, save_isSome (by omega) hcount, fun before => by rw [load, hread]⟩
  · exact inBounds_iff.mp ((load_atomic before file).2 hok r hr)

/-- A process with one writable region, whose first byte can be read. -/
def oneByteProcess (base size : UInt64) : Process where
  queryRegions := [⟨base, size, 2⟩]
  read _ n := if n = 0 then none else some [7]
  read_le _ n bytes h := by
    split at h
    · cases h
    · rw [← Option.some.inj h, List.length_singleton]
      omega

/-- A page that was captured is loaded again. -/
theorem page_survives : ∃ file, save (capture (oneByteProcess 0x1000 0x1000) 8) = some file ∧
    ∀ before, load before (some file) =
      ({ before with regions := [⟨0x1000, 0x1000, 2, [7]⟩] }, .ok ()) :=
  snapshot_files.1 (oneByteProcess 0x1000 0x1000) _
    (fun r hr => by rw [List.mem_singleton.mp hr, LiveRegion.InSpace]; decide) (Or.inl ⟨8, rfl⟩)
    (by decide) (by decide)

/-- A region that is said to run past the top of the address space is captured and saved, and its
file is refused. -/
theorem region_past_top_refused :
    (capture (oneByteProcess 0xfffffffffffff000 0x2000) 8).regions =
        [⟨0xfffffffffffff000, 0x2000, 2, [7]⟩] ∧
      ∃ file, save (capture (oneByteProcess 0xfffffffffffff000 0x2000) 8) = some file ∧
        load {} (some file) = ({}, .error "invalid region bounds") := by
  refine ⟨by decide, _, rfl, ?_⟩
  decide

end CheatEngine.Snapshot
