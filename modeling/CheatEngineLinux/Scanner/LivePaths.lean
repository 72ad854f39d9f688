import CheatEngineLinux.Scanner.PointerReload
import CheatEngineLinux.Scanner.PointerScanResults

/-!
# Paths in the live process

`PointerScanner::dereference` follows a path in the process itself, and the rescans keep the paths
that still lead where they should; `PointerMap::resolve` and the rescans with a map follow them in
a snapshot (`scanner/pointer_scanner.cpp`).

* `walkLive_of_follow` — **PROVED**: where the snapshot leads, the process leads too;
* `walkLive_linkOffsets` — **PROVED**: the offsets of a chain lead from its last slot to the target;
* `mem_scan_of_link` — **PROVED**: scans of depth one find every slot in the window;
* `offline_resolution` — **PROVED**: the map, the scan and the rescans with a map are sound for a
  process that stands still;
* `offline_resolution_fails` — **PROVED**: not for a readable page 0, a module at base 0 and the
  targets 0 and from `2^63` on.
-/

namespace CheatEngine

open ChainSearch

/-! ### The code -/

/-- The pointer `dereference` reads at an address; null counts as none. -/
def PointerTarget.readPointer (target : PointerTarget) (addr : UInt64) : Option UInt64 :=
  let ptrSize := target.pointerWidth addr
  if (ptrSize ≠ 4 && ptrSize ≠ 8) || ptrSize > 8 then none
  else
    let bytes := target.read addr ptrSize
    if bytes.length ≠ ptrSize then none
    else
      match Expression.decodeTargetUnsigned bytes (target.byteOrder addr) with
      | some decoded => if decoded = 0 then none else some decoded
      | none => none

def offsetPointer (ptr : UInt64) (off : Int32) : Option UInt64 :=
  let distance : UInt64 :=
    if off < 0 then (-off.toInt64).toUInt64 else off.toInt64.toUInt64
  if (off < 0 && distance > ptr) || (off ≥ 0 && distance > 0xFFFFFFFFFFFFFFFF - ptr) then none
  else some (if off < 0 then ptr - distance else ptr + distance)

/-- The loop of `dereference`. -/
def PointerTarget.walkLive (target : PointerTarget) : UInt64 → List Int32 → UInt64
  | addr, [] => addr
  | addr, off :: rest =>
    match target.readPointer addr with
    | none => 0
    | some ptr =>
      match offsetPointer ptr off with
      | none => 0
      | some next => walkLive target next rest

def baseOf (modules : List ModuleInfo) (name : String) : UInt64 :=
  match modules.find? (fun m => m.name == name) with
  | some m => m.base
  | none => 0

/-- `PointerScanner::dereference` -/
def dereference (target : PointerTarget) (modules : List ModuleInfo) (path : PointerPath) : UInt64 :=
  let base := if path.module.isEmpty then 0 else baseOf modules path.module
  if !path.module.isEmpty && base = 0 then 0
  else
    let addr := base + path.baseOffset
    if path.baseOffset > 0xFFFFFFFFFFFFFFFF - base then 0
    else target.walkLive addr path.offsets

/-- `PointerScanner::scan` -/
def scan (target : PointerTarget) (config : PointerMapConfig) (cfg : PointerScanConfig)
    (cancelled : ℕ → Bool) : Except String ScanOutcome :=
  if !cfg.runnable then .ok ⟨[], false, false, false⟩
  else do
    let map ← buildPointerMap target config
    return scanWithMap map cfg cancelled

def rescanPointerPaths (target : PointerTarget) (paths : List PointerPath) (newTarget : UInt64) :
    List PointerPath :=
  paths.filter fun path => dereference target target.modules path = newTarget

/-- The bits of a value of `valueSize` bytes. -/
def valueMask (valueSize : ℕ) : UInt64 :=
  if valueSize = 8 then 0xFFFFFFFFFFFFFFFF else UInt64.ofNat (2 ^ (valueSize * 8) - 1)

def holdsValue (target : PointerTarget) (expectedValue : UInt64) (valueSize : ℕ) (addr : UInt64)
    (bytes : List UInt8) : Bool :=
  match Expression.decodeTargetUnsigned bytes (target.byteOrder addr) with
  | some val => val &&& valueMask valueSize = expectedValue &&& valueMask valueSize
  | none => false

def rescanPointerPathsByValue (target : PointerTarget) (paths : List PointerPath)
    (expectedValue : UInt64) (valueSize : ℕ) : List PointerPath :=
  if valueSize = 0 || valueSize > 8 then []
  else
    paths.filter fun path =>
      let addr := dereference target target.modules path
      let bytes := target.read addr valueSize
      addr ≠ 0 && bytes.length = valueSize && holdsValue target expectedValue valueSize addr bytes

def rescanPointerPathsWithMap (map : PointerMap) (paths : List PointerPath) (newTarget : UInt64) :
    List PointerPath :=
  paths.filter fun path => map.resolve path = newTarget

/-- `readMany addrs size` has an entry for each address, `none` where it reports no success. -/
def rescanPointerPathsByValueWithMap (target : PointerTarget)
    (readMany : List UInt64 → ℕ → List (Option (List UInt8))) (map : PointerMap)
    (paths : List PointerPath) (expectedValue : UInt64) (valueSize : ℕ) : List PointerPath :=
  if valueSize = 0 || valueSize > 8 then []
  else
    let resolved := paths.filterMap fun path =>
      let a := map.resolve path
      if a ≠ 0 then some (a, path) else none
    if resolved.isEmpty then []
    else
      (resolved.zip (readMany (resolved.map Prod.fst) valueSize)).filterMap fun (a, out) =>
        match out with
        | some bytes => if holdsValue target expectedValue valueSize a.1 bytes then some a.2 else none
        | none => none

/-- `ProcessHandle::readMany`, one read for each address. -/
def PointerTarget.readEach (target : PointerTarget) (addrs : List UInt64) (size : ℕ) :
    List (Option (List UInt8)) :=
  addrs.map fun addr =>
    let bytes := target.read addr size
    if bytes.length = size then some bytes else none

/-! ### One link -/

theorem toUInt64_toInt {x : Int64} (h : 0 ≤ x.toInt) : (x.toUInt64.toNat : ℤ) = x.toInt := by
  have hle : (0 : Int64) ≤ x := by
    rw [Int64.le_iff_toInt_le]
    exact h
  rw [Int64.toNat_toUInt64_of_le hle, ← Int64.toNat_toInt, Int.toNat_of_nonneg h]

/-- `distance` in `offsetPointer`, in whole numbers. -/
theorem distance_toNat (off : Int32) :
    ((if off < 0 then (-off.toInt64).toUInt64 else off.toInt64.toUInt64).toNat : ℤ)
      = |off.toInt| := by
  have h64 : off.toInt64.toInt = off.toInt := Int32.toInt_toInt64 off
  have hlow := Int32.le_toInt off
  have hhigh := Int32.toInt_lt off
  split
  · rename_i hneg
    have hneg : off.toInt < 0 := Int32.lt_iff_toInt_lt.mp hneg
    have hval : (-off.toInt64).toInt = -off.toInt := by
      rw [Int64.toInt_neg, h64, Int.bmod]
      omega
    rw [toUInt64_toInt (by omega), hval, abs_of_neg hneg]
  · rename_i hnot
    have hpos : 0 ≤ off.toInt := Int32.le_iff_toInt_le.mp (Int32.not_lt.mp hnot)
    rw [toUInt64_toInt (by omega), h64, abs_of_nonneg hpos]

theorem offsetPointer_eq_some_iff {ptr : UInt64} {off : Int32} {next : UInt64} :
    offsetPointer ptr off = some next ↔ (next.toNat : ℤ) = ptr.toNat + off.toInt := by
  have hd := distance_toNat off
  have hptr := ptr.toNat_lt
  have hnext := next.toNat_lt
  have hmax : (0xFFFFFFFFFFFFFFFF - ptr).toNat = 2 ^ 64 - 1 - ptr.toNat :=
    UInt64.toNat_sub_of_le _ _ (by rw [UInt64.le_iff_toNat_le]; exact Nat.le_of_lt_succ hptr)
  rw [offsetPointer]
  by_cases hneg : off < 0
  · have hoff : off.toInt < 0 := Int32.lt_iff_toInt_lt.mp hneg
    have hge : ¬ off ≥ 0 := by
      rw [ge_iff_le, Int32.not_le]
      exact hneg
    simp only [hneg, hge, if_true, decide_true, decide_false, Bool.true_and, Bool.false_and,
      Bool.or_false, decide_eq_true_eq] at hd ⊢
    rw [abs_of_neg hoff] at hd
    generalize (-off.toInt64).toUInt64 = distance at hd ⊢
    by_cases hfits : distance > ptr
    · rw [if_pos hfits]
      have := UInt64.lt_iff_toNat_lt.mp hfits
      exact iff_of_false nofun (by omega)
    · rw [if_neg hfits, Option.some_inj, ← UInt64.toNat_inj,
        UInt64.toNat_sub_of_le _ _ (UInt64.not_lt.mp hfits)]
      have := UInt64.le_iff_toNat_le.mp (UInt64.not_lt.mp hfits)
      omega
  · have hoff : 0 ≤ off.toInt := Int32.le_iff_toInt_le.mp (Int32.not_lt.mp hneg)
    have hge : off ≥ 0 := Int32.not_lt.mp hneg
    simp only [hneg, hge, if_false, decide_true, decide_false, Bool.true_and, Bool.false_and,
      Bool.false_or, decide_eq_true_eq] at hd ⊢
    rw [abs_of_nonneg hoff] at hd
    generalize off.toInt64.toUInt64 = distance at hd ⊢
    by_cases hfits : distance > 0xFFFFFFFFFFFFFFFF - ptr
    · rw [if_pos hfits]
      have := UInt64.lt_iff_toNat_lt.mp hfits
      exact iff_of_false nofun (by omega)
    · rw [if_neg hfits, Option.some_inj, ← UInt64.toNat_inj, UInt64.toNat_add]
      have := UInt64.le_iff_toNat_le.mp (UInt64.not_lt.mp hfits)
      omega

/-- The snapshot adds the same offset modulo `2^64`. -/
theorem offsetPointer_eq {ptr : UInt64} {off : Int32} (hptr : ptr.toNat < 2 ^ 63)
    (hnext : (addOffset ptr off).toNat < 2 ^ 63) : offsetPointer ptr off = some (addOffset ptr off) := by
  have h1 := Int32.toInt_lt off
  have h2 := Int32.le_toInt off
  rw [offsetPointer_eq_some_iff]
  have hval : (off.toInt64.toUInt64.toNat : ℤ) = off.toInt ∨
      (off.toInt64.toUInt64.toNat : ℤ) = 2 ^ 64 + off.toInt := by
    have h := BitVec.toInt_eq_toNat_bmod off.toInt64.toBitVec
    have h64 : off.toInt64.toBitVec.toInt = off.toInt := Int32.toInt_toInt64 off
    have hlt := off.toInt64.toBitVec.isLt
    rw [h64, Int.bmod] at h
    change (off.toInt64.toBitVec.toNat : ℤ) = _ ∨ (off.toInt64.toBitVec.toNat : ℤ) = _
    omega
  rw [addOffset, UInt64.toNat_add] at hnext ⊢
  omega

/-! ### A process that stands still -/

/-- A process whose memory does not change: every region on page bounds and of one machine, the
readable ones below `2^63`. -/
structure StandsStill (target : PointerTarget) (mem : ℕ → UInt8) (pageSize : ℕ)
    (entry : ℕ → Option UInt64) : Prop where
  page : 8 ∣ pageSize
  pages : ∀ r ∈ target.regions, OnPages pageSize r
  disjoint : target.regions.Pairwise MemoryRegion.Disjoint
  resident : ListsResident target pageSize entry
  zero : UnlistedZero target mem
  reads : ∀ r ∈ target.regions, r.read = true →
    ReadsRange target.toFirstScanTarget mem (r.base, r.size)
  machine : ∀ r ∈ target.regions, r.read = true → ∀ a : UInt64, r.base.toNat ≤ a.toNat →
    a.toNat < r.base.toNat + r.size →
      (target.pointerWidth a, target.byteOrder a) = target.machineIn r
  low : ∀ r ∈ target.regions, r.read = true → r.base.toNat + r.size ≤ 2 ^ 63
  high : ∀ (a : UInt64) (n : ℕ), 2 ^ 63 ≤ a.toNat → target.read a n = []

section Live

variable {target : PointerTarget} {config : PointerMapConfig} {mem : ℕ → UInt8} {pageSize : ℕ}
  {entry : ℕ → Option UInt64} {map : PointerMap}

theorem knownMachine_of_build (hmap : buildPointerMap target config = .ok map) :
    knownMachine (target.pointerWidth 0) (target.byteOrder 0) = true := by
  rw [buildPointerMap] at hmap
  by_contra hnot
  rw [if_pos (by simpa using hnot)] at hmap
  cases hmap

structure Records (target : PointerTarget) (config : PointerMapConfig) (mem : ℕ → UInt8)
    (map : PointerMap) : Prop where
  modules : map.modules = target.modules
  distinct : map.DistinctSlots
  slots : ∀ e ∈ map.byTarget, PointerSlot target config mem e
  truncated : map.truncated = true → map.byTarget.length = config.maxEntries
  complete : map.truncated = false → ∀ e, PointerSlot target config mem e → e ∈ map.byTarget

theorem StandsStill.records (hs : StandsStill target mem pageSize entry)
    (hmap : buildPointerMap target config = .ok map) : Records target config mem map := by
  obtain ⟨map', hok, htrunc, hdistinct, hslots, hall⟩ := @buildPointerMap_complete target config mem
    pageSize entry (knownMachine_of_build hmap) hs.page hs.pages hs.disjoint hs.resident hs.zero
    hs.reads
  rw [hmap] at hok
  obtain rfl := Except.ok.inj hok
  exact ⟨(buildPointerMap_ok hmap).2, hdistinct, hslots, htrunc, hall⟩

/-- The process reads what a slot holds; a slot and its pointer lie below `2^63`. -/
theorem StandsStill.readPointer (hs : StandsStill target mem pageSize entry) {e : Entry}
    (he : PointerSlot target config mem e) (hne : e.pointsTo ≠ 0) :
    target.readPointer e.locatedAt = some e.pointsTo := by
  obtain ⟨r, hr, hread, width, order, hmachine, hknown, ⟨k, hk⟩, hfit, hval, -⟩ := he
  have hw := (knownMachine_iff.mp hknown).1
  have hat := hs.machine r hr hread e.locatedAt (by omega) (by omega)
  rw [hmachine] at hat
  obtain ⟨hwidth, horder⟩ := Prod.ext_iff.mp hat
  dsimp only at hwidth horder
  have hbytes := hs.reads r hr hread e.locatedAt width
    (UInt64.le_iff_toNat_le.mpr (Nat.le.intro hk.symm)) hfit
  have hwidths : ((decide (width ≠ 4) && decide (width ≠ 8)) || decide (width > 8)) = false := by
    rcases hw with rfl | rfl <;> rfl
  rw [PointerTarget.readPointer]
  simp only [hwidth, horder, hwidths, hbytes, imageAt_length, hval, Bool.false_eq_true, if_false,
    ne_eq, not_true, hne]

theorem StandsStill.slot_low (hs : StandsStill target mem pageSize entry) {e : Entry}
    (he : PointerSlot target config mem e) :
    e.locatedAt.toNat < 2 ^ 63 ∧ e.pointsTo.toNat < 2 ^ 63 := by
  obtain ⟨r, hr, hread, width, order, -, hknown, -, hfit, -, r', hr', hread', -, hpoints⟩ := he
  have hw := (knownMachine_iff.mp hknown).1
  have := hs.low r hr hread
  have := hs.low r' hr' hread'
  omega

/-! ### Snapshot and process -/

/-- A path that leads somewhere below `2^63` starts there. -/
theorem follow_low (hs : StandsStill target mem pageSize entry)
    (hrec : Records target config mem map) {addr : UInt64} {offsets : List Int32}
    (hne : map.follow addr offsets ≠ 0) (hlow : (map.follow addr offsets).toNat < 2 ^ 63) :
    addr.toNat < 2 ^ 63 := by
  cases offsets with
  | nil => exact hlow
  | cons off rest =>
    rw [PointerMap.follow] at hne
    split at hne
    · rename_i v hv
      obtain ⟨i, hi, hloc, -⟩ := PointerMap.valueAt_eq_some hv
      rw [← hloc]
      exact (hs.slot_low (hrec.slots _ (map.entry_mem hi))).1
    · exact absurd rfl hne

/-- Where the snapshot leads, the process leads too. -/
theorem walkLive_of_follow (hs : StandsStill target mem pageSize entry)
    (hrec : Records target config mem map) (offsets : List Int32) {addr : UInt64}
    (hne : map.follow addr offsets ≠ 0) (hlow : (map.follow addr offsets).toNat < 2 ^ 63) :
    target.walkLive addr offsets = map.follow addr offsets := by
  induction offsets generalizing addr with
  | nil => rfl
  | cons off rest ih =>
    rw [PointerMap.follow] at hne hlow ⊢
    cases hv : map.valueAt addr with
    | none =>
      rw [hv] at hne
      exact absurd rfl hne
    | some v =>
      rw [hv] at hne hlow
      dsimp only at hne hlow ⊢
      by_cases hnull : v = 0
      · rw [if_pos hnull] at hne
        exact absurd rfl hne
      · rw [if_neg hnull] at hne hlow ⊢
        obtain ⟨i, hi, rfl, rfl⟩ := PointerMap.valueAt_eq_some hv
        have hslot := hrec.slots _ (map.entry_mem hi)
        have hnext := follow_low hs hrec hne hlow
        rw [PointerTarget.walkLive, hs.readPointer hslot hnull]
        dsimp only
        rw [offsetPointer_eq (hs.slot_low hslot).2 hnext]
        exact ih hne hlow

theorem moduleBase_eq (hm : map.modules = target.modules) (name : String) :
    map.moduleBase name = baseOf target.modules name := by
  rw [PointerMap.moduleBase, hm]
  rfl

/-- The base of a path and its offset have a sum below `2^64`. -/
def BaseFits (modules : List ModuleInfo) (path : PointerPath) : Prop :=
  (if path.module.isEmpty then 0 else (baseOf modules path.module).toNat) + path.baseOffset.toNat
    < 2 ^ 64

theorem dereference_of_fits {path : PointerPath} (hfits : BaseFits target.modules path)
    (hbase : path.module.isEmpty = false → baseOf target.modules path.module ≠ 0) :
    dereference target target.modules path = target.walkLive
      ((if path.module.isEmpty then 0 else baseOf target.modules path.module) + path.baseOffset)
      path.offsets := by
  have hle : ∀ base : UInt64, base.toNat + path.baseOffset.toNat < 2 ^ 64 →
      ¬ path.baseOffset > 0xFFFFFFFFFFFFFFFF - base := by
    intro base h
    have hlt := base.toNat_lt
    have hmax : (0xFFFFFFFFFFFFFFFF - base).toNat = 2 ^ 64 - 1 - base.toNat :=
      UInt64.toNat_sub_of_le _ _ (by rw [UInt64.le_iff_toNat_le]; exact Nat.le_of_lt_succ hlt)
    rw [gt_iff_lt, UInt64.lt_iff_toNat_lt]
    omega
  rw [BaseFits] at hfits
  rw [dereference]
  cases hname : path.module.isEmpty with
  | true =>
    rw [hname] at hfits
    simp only [Bool.not_true, Bool.false_and, Bool.false_eq_true, if_true, if_false]
    rw [if_neg (hle 0 (by simpa using hfits))]
  | false =>
    rw [hname] at hfits
    simp only [Bool.not_false, Bool.true_and, Bool.false_eq_true, if_false,
      decide_eq_true_eq] at hfits ⊢
    rw [if_neg (hbase hname), if_neg (hle _ hfits)]

theorem dereference_of_resolve (hs : StandsStill target mem pageSize entry)
    (hrec : Records target config mem map) {path : PointerPath}
    (hfits : BaseFits target.modules path) (hne : map.resolve path ≠ 0)
    (hlow : (map.resolve path).toNat < 2 ^ 63) :
    dereference target target.modules path = map.resolve path := by
  rw [PointerMap.resolve] at hne hlow ⊢
  simp only [moduleBase_eq hrec.modules] at hne hlow ⊢
  cases hname : path.module.isEmpty with
  | true =>
    rw [hname, if_pos rfl] at hne hlow
    rw [dereference_of_fits hfits fun h => absurd (hname.symm.trans h) (by decide), hname, if_pos rfl, if_pos rfl,
      UInt64.zero_add]
    exact walkLive_of_follow hs hrec _ hne hlow
  | false =>
    rw [hname, if_neg Bool.false_ne_true] at hne hlow
    by_cases hbase : baseOf target.modules path.module = 0
    · rw [if_pos hbase] at hne
      exact absurd rfl hne
    · rw [if_neg hbase] at hne hlow
      rw [dereference_of_fits hfits fun _ => hbase, hname, if_neg Bool.false_ne_true,
        if_neg Bool.false_ne_true, if_neg hbase]
      exact walkLive_of_follow hs hrec _ hne hlow

/-! ### Scanned paths -/

theorem walkLive_linkOffsets {cfg : PointerScanConfig}
    (hread : ∀ e ∈ map.byTarget, target.readPointer e.locatedAt = some e.pointsTo)
    {c : List ℕ} {address : UInt64} (hc : LinkedFrom map cfg address c) (tail : List Int32) :
    target.walkLive ((c.map (slotOf map)).getLastD address)
        ((linkOffsets map address c).reverse ++ tail) =
      target.walkLive address tail := by
  induction c generalizing address tail with
  | nil => rfl
  | cons i c ih =>
    obtain ⟨hi, hwin, hrest⟩ := hc
    have hnext : offsetPointer (map.entry i).pointsTo
        (toOffset (address - (map.entry i).pointsTo)) = some address := by
      rw [offsetPointer_eq_some_iff, toOffset_toInt _ _ hwin.fits.1 hwin.fits.2]
      omega
    rw [linkOffsets, List.map_cons, List.getLastD_cons, List.reverse_cons, List.append_assoc,
      ih hrest, List.singleton_append, PointerTarget.walkLive, slotOf,
      hread _ (map.entry_mem hi)]
    dsimp only
    rw [hnext]

theorem dereference_of_mem_scan {cfg : PointerScanConfig}
    (hread : ∀ e ∈ map.byTarget, target.readPointer e.locatedAt = some e.pointsTo)
    (hm : map.modules = target.modules) (hb : ∀ m ∈ target.modules, m.base ≠ 0)
    (hn : NamesFirst target.modules) {cancelled : ℕ → Bool} {path : PointerPath}
    (hp : path ∈ (scanWithMap map cfg cancelled).paths) :
    dereference target target.modules path = cfg.targetAddress := by
  obtain ⟨hrun, v, hv, hvp⟩ := mem_scan_paths hp
  obtain ⟨-, -, -, h0⟩ := runnable_iff.mp hrun
  rw [visitsFrom_eq map cfg h0] at hv
  obtain ⟨c, hc, rfl⟩ := List.mem_map.mp hv
  obtain ⟨hchain, -⟩ := (mem_breadthFirst_iff map cfg c).mp hc
  obtain ⟨b, hbase, rfl⟩ := Option.map_eq_some_iff.mp hvp
  change endpoint map.modules cfg (map.entry (c.getLastD 0)).locatedAt = some b at hbase
  rw [hm] at hbase
  set slot := (map.entry (c.getLastD 0)).locatedAt with hslot
  have hoffs : (visitOf map cfg.targetAddress [] [cfg.targetAddress] c).offsets
      = (linkOffsets map cfg.targetAddress c).reverse := List.append_nil _
  have hwalk : target.walkLive slot (linkOffsets map cfg.targetAddress c).reverse
      = cfg.targetAddress := by
    have h := walkLive_linkOffsets hread hchain.linkedFrom []
    rw [getLastD_slotOf hchain.nonempty, List.append_nil] at h
    exact h
  rw [hoffs]
  have hlt := slot.toNat_lt
  rcases endpoint_base hb hn hbase with ⟨hname, hoff⟩ | ⟨hname, hle, hoff, hne, m, hfind, hmb⟩
  · rw [dereference_of_fits (by simpa [BaseFits, hname, hoff] using hlt) (by simp [hname])]
    simp only [hname, if_true, hoff, UInt64.zero_add]
    exact hwalk
  · have hbaseOf : baseOf target.modules b.1 = b.2.1 := by
      rw [baseOf, hfind]
      exact hmb
    have hsub : (slot - b.2.1).toNat = slot.toNat - b.2.1.toNat := UInt64.toNat_sub_of_le _ _ hle
    have hle' := UInt64.le_iff_toNat_le.mp hle
    rw [dereference_of_fits (by simp only [BaseFits, hname, hbaseOf, hoff]; simp; omega)
      (by simp [hbaseOf, hne])]
    simp only [hname, Bool.false_eq_true, if_false, hbaseOf, hoff]
    rw [show b.2.1 + (slot - b.2.1) = slot by grind]
    exact hwalk

theorem StandsStill.readPointers (hs : StandsStill target mem pageSize entry)
    (hrec : Records target config mem map) (hnull : readable target.regions 0 = false) :
    ∀ e ∈ map.byTarget, target.readPointer e.locatedAt = some e.pointsTo := by
  intro e he
  refine hs.readPointer (hrec.slots e he) fun hzero => ?_
  obtain ⟨_, _, _, _, _, _, _, _, _, _, r, hr, hread, hlow, hhigh⟩ := hrec.slots e he
  rw [hzero] at hlow hhigh
  have htrue := (readable_iff (fun r hr => (hs.pages r hr).fits) 0).mpr ⟨r, hr, hread, hlow, hhigh⟩
  rw [hnull] at htrue
  cases htrue

/-! ### Rescans -/

theorem filter_sublist_filter {α : Type} {p q : α → Bool} {l : List α}
    (h : ∀ a ∈ l, p a = true → q a = true) : (l.filter p).Sublist (l.filter q) := by
  have hboth : l.filter p = (l.filter q).filter p := by
    rw [List.filter_filter]
    refine List.filter_congr fun a ha => ?_
    cases hp : p a with
    | false => rfl
    | true => rw [h a ha hp, Bool.true_and]
  rw [hboth]
  exact List.filter_sublist

theorem rescanWithMap_sublist (hs : StandsStill target mem pageSize entry)
    (hrec : Records target config mem map) {paths : List PointerPath}
    (hfits : ∀ path ∈ paths, BaseFits target.modules path) {newTarget : UInt64}
    (hne : newTarget ≠ 0) (hlow : newTarget.toNat < 2 ^ 63) :
    (rescanPointerPathsWithMap map paths newTarget).Sublist
      (rescanPointerPaths target paths newTarget) := by
  refine filter_sublist_filter fun path hpath h => ?_
  obtain rfl := of_decide_eq_true h
  exact decide_eq_true (dereference_of_resolve hs hrec (hfits path hpath) hne hlow)

theorem rescanByValueWithMap_eq (paths : List PointerPath) (expectedValue : UInt64)
    {valueSize : ℕ} (hsize : (decide (valueSize = 0) || decide (valueSize > 8)) = false) :
    rescanPointerPathsByValueWithMap target target.readEach map paths expectedValue valueSize =
      paths.filter fun path =>
        let addr := map.resolve path
        let bytes := target.read addr valueSize
        addr ≠ 0 && bytes.length = valueSize
          && holdsValue target expectedValue valueSize addr bytes := by
  rw [rescanPointerPathsByValueWithMap, hsize, if_neg Bool.false_ne_true]
  dsimp only
  rw [ite_eq_right_iff.mpr fun hnone => by rw [List.isEmpty_iff.mp hnone]; rfl]
  induction paths with
  | nil => rfl
  | cons path paths ih =>
    rw [PointerTarget.readEach] at ih ⊢
    by_cases hnull : map.resolve path = 0
    · rw [List.filterMap_cons_none (by rw [if_neg (not_not.mpr hnull)]), ih,
        List.filter_cons_of_neg (by simp [hnull])]
    · rw [List.filterMap_cons_some (by rw [if_pos hnull]), List.map_cons, List.map_cons,
        List.zip_cons_cons, List.filterMap_cons, ih, List.filter_cons]
      by_cases hlen : (target.read (map.resolve path) valueSize).length = valueSize
      · cases hval : holdsValue target expectedValue valueSize (map.resolve path)
          (target.read (map.resolve path) valueSize) <;> simp [hnull, hlen, hval]
      · simp [hnull, hlen]

theorem rescanByValueWithMap_sublist (hs : StandsStill target mem pageSize entry)
    (hrec : Records target config mem map) {paths : List PointerPath}
    (hfits : ∀ path ∈ paths, BaseFits target.modules path) (expectedValue : UInt64)
    (valueSize : ℕ) :
    (rescanPointerPathsByValueWithMap target target.readEach map paths expectedValue
      valueSize).Sublist (rescanPointerPathsByValue target paths expectedValue valueSize) := by
  cases hsize : (decide (valueSize = 0) || decide (valueSize > 8)) with
  | true =>
    rw [rescanPointerPathsByValueWithMap, rescanPointerPathsByValue, hsize, if_pos rfl, if_pos rfl]
  | false =>
    have hpos : 0 < valueSize := by
      simp only [Bool.or_eq_false_iff, decide_eq_false_iff_not] at hsize
      omega
    rw [rescanByValueWithMap_eq _ _ hsize, rescanPointerPathsByValue, hsize,
      if_neg Bool.false_ne_true]
    refine filter_sublist_filter fun path hpath h => ?_
    simp only [Bool.and_eq_true, decide_eq_true_eq, ne_eq] at h ⊢
    -- a value that was read lies below `2^63`
    have hlow : (map.resolve path).toNat < 2 ^ 63 := by
      by_contra hhigh
      have hlen := h.1.2
      rw [hs.high _ _ (Nat.not_lt.mp hhigh), List.length_nil] at hlen
      omega
    rwa [dereference_of_resolve hs hrec (hfits path hpath) h.1.1 hlow]

end Live

/-! ### Scans of depth one -/

section OneLink

variable {map : PointerMap} {cfg : PointerScanConfig}

theorem outLinks_length_le (h0 : 0 ≤ cfg.maxOffset) (address : UInt64) :
    (outLinks map cfg address).length ≤ map.byTarget.length := by
  rw [outLinks_eq_linksTo map cfg h0, linksTo]
  exact (List.length_filter_le _ _).trans_eq List.length_range

theorem mem_scan_of_link (hrun : cfg.runnable = true) (hcount : cfg.shardCount = 1)
    (hdepth : cfg.maxDepth = 1) (hresults : map.byTarget.length ≤ cfg.maxResults)
    (hvisits : map.byTarget.length ≤ cfg.maxVisits) {i : ℕ} (hi : i < map.byTarget.length)
    (hwin : InWindow cfg cfg.targetAddress (map.entry i).pointsTo)
    (hend : endsWell map cfg [i] = true) :
    chainPath map cfg [i] ∈ (scanWithMap map cfg fun _ => false).paths := by
  obtain ⟨-, hidx, -, h0⟩ := runnable_iff.mp hrun
  have hlen := @outLinks_length_le map cfg h0 cfg.targetAddress
  -- the one pass looks at the links to the target and records at most a path for each
  have hsteps : stepsFrom map cfg cfg.maxDepth.toNat 0 ≤ cfg.maxVisits := by
    rw [hdepth, show (1 : ℤ).toNat = 1 from rfl, stepsFrom, stepsFrom, ite_self, Nat.add_zero,
      levelSteps, steps]
    exact hlen.trans hvisits
  have hpaths : (pathsFrom map cfg cfg.maxDepth.toNat 0).length ≤ cfg.maxResults := by
    rw [hdepth, show (1 : ℤ).toNat = 1 from rfl, pathsFrom]
    refine (List.length_filterMap_le _ _).trans ?_
    rw [visitsFrom, List.range_one, List.flatMap_singleton, levelVisits, List.length_map,
      levelChains, chainsOn, List.length_map]
    exact hlen.trans hresults
  obtain ⟨hr, hw⟩ := (@scan_limits_iff map cfg hrun).mpr ⟨hsteps, hpaths⟩
  rw [scan_paths_eq hcount hidx hr hw]
  refine List.mem_map_of_mem (List.mem_filter.mpr ⟨(mem_breadthFirst_iff map cfg [i]).mpr
    ⟨⟨by simp, ?_, ?_, List.isChain_singleton _, by simp⟩, by simp [hdepth]⟩, hend⟩)
  · exact fun j hj => List.mem_singleton.mp hj ▸ hi
  · exact fun j hj => Option.some.inj hj ▸ hwin

end OneLink

/-! ### Soundness -/

section Sound

variable {target : PointerTarget} {config : PointerMapConfig} {mem : ℕ → UInt8} {pageSize : ℕ}
  {entry : ℕ → Option UInt64} {map : PointerMap}

/-- What the map and the scan of a process that stands still say of it holds there, and the
rescans with the map keep no path that the rescans in the process drop. -/
theorem offline_resolution (hs : StandsStill target mem pageSize entry)
    (hmap : buildPointerMap target config = .ok map)
    {readMany : List UInt64 → ℕ → List (Option (List UInt8))}
    (hmany : ∀ addrs size, readMany addrs size = target.readEach addrs size) :
    (∀ path, BaseFits target.modules path → map.resolve path ≠ 0 →
      (map.resolve path).toNat < 2 ^ 63 →
        dereference target target.modules path = map.resolve path) ∧
    (readable target.regions 0 = false → (∀ m ∈ target.modules, m.base ≠ 0) →
      NamesFirst target.modules → ∀ cfg cancelled outcome,
        scan target config cfg cancelled = .ok outcome → ∀ path ∈ outcome.paths,
          dereference target target.modules path = cfg.targetAddress) ∧
    (∀ paths : List PointerPath, (∀ path ∈ paths, BaseFits target.modules path) →
      (∀ newTarget : UInt64, newTarget ≠ 0 → newTarget.toNat < 2 ^ 63 →
        (rescanPointerPathsWithMap map paths newTarget).Sublist
          (rescanPointerPaths target paths newTarget)) ∧
      ∀ expectedValue valueSize,
        (rescanPointerPathsByValueWithMap target readMany map paths expectedValue
          valueSize).Sublist (rescanPointerPathsByValue target paths expectedValue valueSize)) := by
  have hrec := hs.records hmap
  obtain rfl : readMany = target.readEach := funext fun addrs => funext (hmany addrs)
  refine ⟨fun path hfits hne hlow => dereference_of_resolve hs hrec hfits hne hlow, ?_,
    fun paths hfits => ⟨fun _ hne hlow => rescanWithMap_sublist hs hrec hfits hne hlow,
      rescanByValueWithMap_sublist hs hrec hfits⟩⟩
  intro hnull hb hn cfg cancelled outcome hscan path hpath
  rw [scan] at hscan
  split at hscan
  · rw [← Except.ok.inj hscan] at hpath
    exact absurd hpath List.not_mem_nil
  · rw [hmap] at hscan
    rw [← Except.ok.inj hscan] at hpath
    exact dereference_of_mem_scan (hs.readPointers hrec hnull) hrec.modules hb hn hpath

def pageProcess (base : UInt64) (mem : ℕ → UInt8) (modules : List ModuleInfo) : PointerTarget where
  regions := [{ base, size := 0x1000 }]
  read address size :=
    if base ≤ address then
      imageAt mem address.toNat (min size (base.toNat + 0x1000 - address.toNat))
    else []
  residentRanges base size := [(base, base + UInt64.ofNat size)]
  pointerWidth _ := 8
  byteOrder _ := .little
  modules

theorem pageProcess_standsStill {base : UInt64} (hpage : 0x1000 ∣ base.toNat)
    (hlow : base.toNat + 0x1000 ≤ 2 ^ 63) (mem : ℕ → UInt8) (modules : List ModuleInfo) :
    StandsStill (pageProcess base mem modules) mem 0x1000 fun _ => none := by
  have hone : ∀ r ∈ (pageProcess base mem modules).regions, r = { base, size := 0x1000 } :=
    fun r hr => List.mem_singleton.mp hr
  refine ⟨by decide, ?_, List.pairwise_singleton _ _, Or.inl rfl, ?_, ?_, ?_, ?_, ?_⟩
  · intro r hr
    rw [hone r hr]
    exact ⟨hpage, Nat.dvd_refl _, by dsimp only; omega⟩
  · intro r hr _ a hfrom hto hout
    rw [hone r hr] at hfrom hto hout
    dsimp only at hfrom hto hout
    refine absurd ⟨hfrom, ?_⟩ (hout _ (List.mem_singleton_self _))
    rw [UInt64.toNat_add, UInt64.toNat_ofNat_of_lt' (by decide), Nat.mod_eq_of_lt (by omega)]
    exact hto
  · intro r hr _ a n hfrom hto
    rw [hone r hr] at hfrom hto
    dsimp only at hfrom hto
    change (if base ≤ a then _ else _) = _
    rw [if_pos hfrom, Nat.min_eq_left (by omega)]
  · exact fun r hr _ a _ _ => rfl
  · intro r hr _
    rw [hone r hr]
    exact hlow
  · intro a n ha
    change (if base ≤ a then _ else _) = _
    rw [show base.toNat + 0x1000 - a.toNat = 0 by omega, Nat.min_zero]
    exact ite_self _

theorem StandsStill.exists_map (hs : StandsStill target mem pageSize entry)
    (hmachine : knownMachine (target.pointerWidth 0) (target.byteOrder 0) = true) :
    ∃ map, buildPointerMap target config = .ok map ∧ Records target config mem map := by
  obtain ⟨map, hmap, -⟩ := @buildPointerMap_complete target config mem pageSize entry hmachine hs.page
    hs.pages hs.disjoint hs.resident hs.zero hs.reads
  exact ⟨map, hmap, hs.records hmap⟩

theorem Records.byTarget_pos (hrec : Records target config mem map)
    (hmax : 0 < config.maxEntries) {e : Entry} (he : PointerSlot target config mem e) :
    0 < map.byTarget.length := by
  cases htrunc : map.truncated with
  | true => exact hmax.trans_eq (hrec.truncated htrunc).symm
  | false => exact List.length_pos_of_mem (hrec.complete htrunc e he)

theorem pageProcess_slot {base : UInt64} {mem : ℕ → UInt8} {modules : List ModuleInfo} {e : Entry}
    (he : PointerSlot (pageProcess base mem modules) config mem e) :
    base.toNat ≤ e.locatedAt.toNat ∧ e.locatedAt.toNat < base.toNat + 0x1000 ∧
      base.toNat ≤ e.pointsTo.toNat ∧ e.pointsTo.toNat < base.toNat + 0x1000 ∧
      Expression.decodeTargetUnsigned (imageAt mem e.locatedAt.toNat 8) .little
        = some e.pointsTo := by
  obtain ⟨r, hr, -, width, order, hmachine, -, ⟨k, hk⟩, hfit, hval, r', hr', -, hlow, hhigh⟩ := he
  obtain rfl := List.mem_singleton.mp hr
  obtain rfl := List.mem_singleton.mp hr'
  obtain ⟨rfl, rfl⟩ := Prod.ext_iff.mp hmachine
  dsimp only [pageProcess, PointerTarget.machineIn] at *
  exact ⟨by omega, by simp at hfit; omega, hlow, hhigh, hval⟩

def aboveConfig (targetAddress : UInt64) : PointerScanConfig :=
  { targetAddress, maxDepth := 1, maxOffset := 0x1000, staticOnly := false }

theorem pageProcess_scan {base : UInt64} {mem : ℕ → UInt8} {modules : List ModuleInfo}
    (hmap : buildPointerMap (pageProcess base mem modules) { maxMapEntries := 1 } = .ok map)
    (hrec : Records (pageProcess base mem modules) { maxMapEntries := 1 } mem map)
    (hpos : 0 < map.byTarget.length) (htop : base.toNat + 0x1000 < 2 ^ 64) :
    ∃ outcome, scan (pageProcess base mem modules) { maxMapEntries := 1 }
        (aboveConfig (base + 0x1000)) (fun _ => false) = .ok outcome ∧
      chainPath map (aboveConfig (base + 0x1000)) [0] ∈ outcome.paths := by
  have hlen : map.byTarget.length ≤ 1 := (buildPointerMap_ok hmap).1
  obtain ⟨-, -, hlow, hhigh, -⟩ := pageProcess_slot (hrec.slots _ (map.entry_mem hpos))
  have htarget : (base + 0x1000).toNat = base.toNat + 0x1000 := by
    rw [UInt64.toNat_add]
    exact Nat.mod_eq_of_lt htop
  refine ⟨scanWithMap map (aboveConfig (base + 0x1000)) fun _ => false, ?_, ?_⟩
  · rw [scan, show (aboveConfig (base + 0x1000)).runnable = true from rfl, hmap]
    rfl
  · have hresults : map.byTarget.length ≤ 100000 := by omega
    have hvisits : map.byTarget.length ≤ 2 ^ 32 := by omega
    refine mem_scan_of_link rfl rfl rfl hresults hvisits hpos ?_ rfl
    rw [InWindow]
    change (if false = true then _ else (0 : ℤ)) ≤ ((base + 0x1000).toNat : ℤ) - _ ∧
      ((base + 0x1000).toNat : ℤ) - _ ≤ 0x1000
    rw [htarget, if_neg Bool.false_ne_true]
    omega

theorem chainPath_offsets (cfg : PointerScanConfig) (c : List ℕ) :
    (chainPath map cfg c).offsets = (linkOffsets map cfg.targetAddress c).reverse := by
  unfold chainPath
  dsimp only
  split <;> rfl

/-- A page at address 0 that holds zeros. -/
def nullPage : PointerTarget := pageProcess 0 (fun _ => 0) []

theorem nullPage_dereference {path : PointerPath} (h : path.offsets ≠ []) :
    dereference nullPage [] path = 0 := by
  have hread : ∀ addr, nullPage.readPointer addr = none := by
    intro addr
    have hzeros : ∀ n, imageAt (fun _ => 0) addr.toNat n = List.replicate n 0 := fun n => by
      simp [imageAt]
    obtain ⟨n, hn⟩ : ∃ n, nullPage.read addr 8 = List.replicate n 0 := by
      refine ⟨min 8 (0x1000 - addr.toNat), ?_⟩
      change (if 0 ≤ addr then imageAt (fun _ => 0) addr.toNat (min 8 (0 + 0x1000 - addr.toNat))
        else []) = _
      rw [if_pos UInt64.zero_le, Nat.zero_add, hzeros]
    rw [PointerTarget.readPointer]
    simp only [show nullPage.pointerWidth addr = 8 from rfl, hn, List.length_replicate]
    by_cases hlen : n = 8
    · subst hlen
      rfl
    · rw [if_neg (by decide), if_pos hlen]
  obtain ⟨off, rest, hoffs⟩ := List.exists_cons_of_ne_nil h
  have hwalk : ∀ addr, nullPage.walkLive addr path.offsets = 0 := by
    intro addr
    rw [hoffs, PointerTarget.walkLive, hread]
  rw [dereference]
  simp only [hwalk, ite_self]

def lowModule : PointerTarget := pageProcess 0x10000 selfPointer [⟨0, 0x20000, "game"⟩]

def selfPage : PointerTarget := pageProcess 0x10000 selfPointer []

theorem selfPointer_slot (maxMapEntries : ℕ) (modules : List ModuleInfo) :
    PointerSlot (pageProcess 0x10000 selfPointer modules) { maxMapEntries } selfPointer
      ⟨0x10000, 0x10008⟩ :=
  ⟨_, List.mem_singleton_self _, rfl, 8, .little, rfl, rfl, ⟨1, rfl⟩, by decide, by decide,
    _, List.mem_singleton_self _, rfl, by decide, by decide⟩

theorem selfPage_standsStill (modules : List ModuleInfo) :
    StandsStill (pageProcess 0x10000 selfPointer modules) selfPointer 0x1000 fun _ => none :=
  pageProcess_standsStill (by decide) (by decide) _ _

theorem nullPage_scan : ∃ outcome, scan nullPage { maxMapEntries := 1 } (aboveConfig 0x1000)
      (fun _ => false) = .ok outcome ∧
    ∃ path ∈ outcome.paths, dereference nullPage nullPage.modules path ≠ 0x1000 := by
  have hs : StandsStill nullPage (fun _ => 0) 0x1000 fun _ => none :=
    pageProcess_standsStill (by decide) (by decide) _ _
  obtain ⟨map, hmap, hrec⟩ := @StandsStill.exists_map _ { maxMapEntries := 1 } _ _ _ hs rfl
  have hslot : PointerSlot nullPage { maxMapEntries := 1 } (fun _ => 0) ⟨0, 0⟩ :=
    ⟨_, List.mem_singleton_self _, rfl, 8, .little, rfl, rfl, ⟨0, rfl⟩, by decide, by decide,
      _, List.mem_singleton_self _, rfl, by decide, by decide⟩
  have hpos := hrec.byTarget_pos Nat.one_pos hslot
  obtain ⟨outcome, hscan, hpath⟩ := pageProcess_scan hmap hrec hpos (by decide)
  refine ⟨outcome, hscan, _, hpath, ?_⟩
  rw [show nullPage.modules = [] from rfl, nullPage_dereference]
  · decide
  · intro hnil
    have hlen := congrArg List.length hnil
    rw [chainPath_offsets, List.length_reverse, linkOffsets_length] at hlen
    cases hlen

theorem lowModule_scan : ∃ outcome, scan lowModule { maxMapEntries := 1 } (aboveConfig 0x11000)
      (fun _ => false) = .ok outcome ∧
    ∃ path ∈ outcome.paths, dereference lowModule lowModule.modules path ≠ 0x11000 := by
  obtain ⟨map, hmap, hrec⟩ := @StandsStill.exists_map _ { maxMapEntries := 1 } _ _ _
    (selfPage_standsStill [⟨0, 0x20000, "game"⟩]) rfl
  have hpos := hrec.byTarget_pos Nat.one_pos (selfPointer_slot 1 _)
  obtain ⟨outcome, hscan, hpath⟩ := pageProcess_scan hmap hrec hpos (by decide)
  obtain ⟨-, hslot, -⟩ := pageProcess_slot (hrec.slots _ (map.entry_mem hpos))
  refine ⟨outcome, hscan, _, hpath, ?_⟩
  have hholds : (ModuleInfo.mk 0 0x20000 "game").holds (map.entry 0).locatedAt = true := by
    rw [ModuleInfo.holds, Bool.and_eq_true, decide_eq_true_eq, decide_eq_true_eq, UInt64.sub_zero]
    refine ⟨UInt64.zero_le, UInt64.lt_iff_toNat_lt.mpr (hslot.trans (by decide))⟩
  have hname : (chainPath map (aboveConfig (0x10000 + 0x1000)) [0]).module = "game" := by
    have hmodules : map.modules = [⟨0, 0x20000, "game"⟩] := hrec.modules
    have hfind : ([0].find? fun k => (moduleAt [⟨0, 0x20000, "game"⟩] k).holds
        (map.entry 0).locatedAt) = some 0 := List.find?_cons_of_pos hholds
    unfold chainPath
    dsimp only
    rw [hmodules, show nameable [⟨0, 0x20000, "game"⟩] = [0] from rfl,
      show [0].getLastD 0 = 0 from rfl, hfind]
    rfl
  rw [dereference, hname, if_pos (by decide)]
  decide

theorem rescans_differ {target : PointerTarget} {path : PointerPath} {newTarget : UInt64}
    (hmap : map.resolve path = newTarget)
    (hlive : dereference target target.modules path ≠ newTarget) :
    rescanPointerPathsWithMap map [path] newTarget = [path] ∧
      rescanPointerPaths target [path] newTarget = [] := by
  simp [rescanPointerPathsWithMap, rescanPointerPaths, hmap, hlive]

theorem rescan_null_target : ∃ map, buildPointerMap selfPage { maxMapEntries := 0 } = .ok map ∧
    BaseFits selfPage.modules ⟨"", 0, 0x10008, [0]⟩ ∧
    rescanPointerPathsWithMap map [⟨"", 0, 0x10008, [0]⟩] 0 = [⟨"", 0, 0x10008, [0]⟩] ∧
    rescanPointerPaths selfPage [⟨"", 0, 0x10008, [0]⟩] 0 = [] := by
  have hs := selfPage_standsStill []
  obtain ⟨map, hmap, hrec⟩ := @StandsStill.exists_map _ { maxMapEntries := 0 } _ _ _ hs rfl
  have hfits : BaseFits selfPage.modules ⟨"", 0, 0x10008, [0]⟩ := by
    rw [BaseFits]
    decide
  have hnone : map.valueAt 0x10008 = none := by
    cases hv : map.valueAt 0x10008 with
    | none => rfl
    | some v =>
      obtain ⟨i, hi, -⟩ := PointerMap.valueAt_eq_some hv
      exact absurd (hi.trans_le (buildPointerMap_ok hmap).1) (Nat.not_lt_zero i)
  have hresolve : map.resolve ⟨"", 0, 0x10008, [0]⟩ = 0 := by
    change map.follow 0x10008 [0] = 0
    rw [PointerMap.follow, hnone]
  have hlive : dereference selfPage [] ⟨"", 0, 0x10008, [0]⟩ = 0x10000 := by
    refine (dereference_of_fits hfits fun h => absurd h.symm Bool.false_ne_true).trans ?_
    change selfPage.walkLive 0x10008 [0] = _
    rw [PointerTarget.walkLive, show selfPage.readPointer 0x10008 = some 0x10000 from
      hs.readPointer (selfPointer_slot 0 []) (by decide)]
    rfl
  exact ⟨map, hmap, hfits, rescans_differ hresolve fun h => absurd (hlive.symm.trans h) (by decide)⟩

/-- The map adds a negative offset modulo `2^64`. -/
theorem rescan_high_target : ∃ map, buildPointerMap selfPage { maxMapEntries := 1 } = .ok map ∧
    ∃ path newTarget, BaseFits selfPage.modules path ∧
      rescanPointerPathsWithMap map [path] newTarget = [path] ∧
      rescanPointerPaths selfPage [path] newTarget = [] := by
  have hs := selfPage_standsStill []
  obtain ⟨map, hmap, hrec⟩ := @StandsStill.exists_map _ { maxMapEntries := 1 } _ _ _ hs rfl
  have hpos := hrec.byTarget_pos Nat.one_pos (selfPointer_slot 1 _)
  have hslot := hrec.slots _ (map.entry_mem hpos)
  obtain ⟨-, -, hlow, hhigh, -⟩ := pageProcess_slot hslot
  have hnull : (map.entry 0).pointsTo ≠ 0 := by
    intro h
    rw [h] at hlow
    exact absurd hlow (by decide)
  have hfits : BaseFits selfPage.modules ⟨"", 0, (map.entry 0).locatedAt, [-0x20000]⟩ := by
    rw [BaseFits]
    have := (map.entry 0).locatedAt.toNat_lt
    simpa using this
  have hresolve : map.resolve ⟨"", 0, (map.entry 0).locatedAt, [-0x20000]⟩
      = addOffset (map.entry 0).pointsTo (-0x20000) := by
    change map.follow (map.entry 0).locatedAt [-0x20000] = _
    rw [PointerMap.follow, PointerMap.valueAt_locatedAt hrec.distinct hpos]
    dsimp only
    rw [if_neg hnull, PointerMap.follow]
  have hlive : dereference selfPage [] ⟨"", 0, (map.entry 0).locatedAt, [-0x20000]⟩ = 0 := by
    refine (dereference_of_fits hfits fun h => absurd h.symm Bool.false_ne_true).trans ?_
    change selfPage.walkLive (0 + (map.entry 0).locatedAt) [-0x20000] = _
    have hstep : offsetPointer (map.entry 0).pointsTo (-0x20000) = none := by
      cases h : offsetPointer (map.entry 0).pointsTo (-0x20000) with
      | none => rfl
      | some next =>
        have hnext := offsetPointer_eq_some_iff.mp h
        rw [show (-0x20000 : Int32).toInt = -0x20000 from rfl] at hnext
        have := hhigh.trans_eq (show (0x10000 : UInt64).toNat + 0x1000 = 0x11000 from rfl)
        omega
    rw [UInt64.zero_add, PointerTarget.walkLive, show selfPage.readPointer _ = _ from
      hs.readPointer hslot hnull]
    dsimp only
    rw [hstep]
  have hne : addOffset (map.entry 0).pointsTo (-0x20000) ≠ 0 := by
    intro h
    have hsum := congrArg UInt64.toNat h
    rw [addOffset, UInt64.toNat_add, show (-0x20000 : Int32).toInt64.toUInt64.toNat
      = 2 ^ 64 - 0x20000 from rfl, UInt64.toNat_zero] at hsum
    have := hhigh.trans_eq (show (0x10000 : UInt64).toNat + 0x1000 = 0x11000 from rfl)
    omega
  exact ⟨map, hmap, _, _, hfits, rescans_differ hresolve fun h => hne (h.symm.trans hlive)⟩

/-- Not so for a readable page 0, for a module at base 0, and for the targets 0 and from `2^63`
on. -/
theorem offline_resolution_fails :
    (StandsStill nullPage (fun _ => 0) 0x1000 (fun _ => none) ∧
      ∃ outcome, scan nullPage { maxMapEntries := 1 } (aboveConfig 0x1000) (fun _ => false)
          = .ok outcome ∧
        ∃ path ∈ outcome.paths, dereference nullPage nullPage.modules path ≠ 0x1000) ∧
    (StandsStill lowModule selfPointer 0x1000 (fun _ => none) ∧
      ∃ outcome, scan lowModule { maxMapEntries := 1 } (aboveConfig 0x11000) (fun _ => false)
          = .ok outcome ∧
        ∃ path ∈ outcome.paths, dereference lowModule lowModule.modules path ≠ 0x11000) ∧
    StandsStill selfPage selfPointer 0x1000 (fun _ => none) ∧
    (∃ map, buildPointerMap selfPage { maxMapEntries := 0 } = .ok map ∧
      BaseFits selfPage.modules ⟨"", 0, 0x10008, [0]⟩ ∧
      rescanPointerPathsWithMap map [⟨"", 0, 0x10008, [0]⟩] 0 = [⟨"", 0, 0x10008, [0]⟩] ∧
      rescanPointerPaths selfPage [⟨"", 0, 0x10008, [0]⟩] 0 = []) ∧
    ∃ map, buildPointerMap selfPage { maxMapEntries := 1 } = .ok map ∧
      ∃ path newTarget, BaseFits selfPage.modules path ∧
        rescanPointerPathsWithMap map [path] newTarget = [path] ∧
        rescanPointerPaths selfPage [path] newTarget = [] :=
  ⟨⟨pageProcess_standsStill (by decide) (by decide) _ _, nullPage_scan⟩,
    ⟨selfPage_standsStill _, lowModule_scan⟩, selfPage_standsStill _, rescan_null_target,
    rescan_high_target⟩

/-- The map of a page with a pointer to itself. -/
theorem selfPage_resolution : ∃ map, buildPointerMap selfPage {} = .ok map ∧
    (∀ path, BaseFits selfPage.modules path → map.resolve path ≠ 0 →
      (map.resolve path).toNat < 2 ^ 63 → dereference selfPage [] path = map.resolve path) ∧
    (∀ cfg cancelled outcome, scan selfPage {} cfg cancelled = .ok outcome →
      ∀ path ∈ outcome.paths, dereference selfPage [] path = cfg.targetAddress) ∧
    ∀ paths : List PointerPath, (∀ path ∈ paths, BaseFits selfPage.modules path) →
      ∀ newTarget : UInt64, newTarget ≠ 0 → newTarget.toNat < 2 ^ 63 →
        (rescanPointerPathsWithMap map paths newTarget).Sublist
          (rescanPointerPaths selfPage paths newTarget) := by
  obtain ⟨map, hmap, -⟩ := @StandsStill.exists_map _ {} _ _ _ (selfPage_standsStill []) rfl
  obtain ⟨hresolve, hscan, hrescan⟩ := @offline_resolution selfPage {} _ _ _ map
    (selfPage_standsStill []) hmap _ fun _ _ => rfl
  have hnull : readable selfPage.regions 0 = false := by
    have hfit : ∀ r ∈ selfPage.regions, r.base.toNat + r.size ≤ 2 ^ 64 := by decide
    rw [Bool.eq_false_iff, Ne, readable_iff hfit]
    decide
  exact ⟨map, hmap, hresolve,
    hscan hnull (fun m hm => absurd hm List.not_mem_nil)
      (fun i hi => absurd hi List.not_mem_nil),
    fun paths hfits => (hrescan paths hfits).1⟩

end Sound

end CheatEngine
