import CheatEngineLinux.Library.ByteReader
import CheatEngineLinux.Scanner.PointerMap

/-!
# Pointer files

`savePointerPaths`/`loadPointerPaths` and `PointerMap::save`/`PointerMap::load`
(`scanner/pointer_scanner.cpp`).  Both formats are a magic, counts, and records with
length-prefixed names.

* `loadPointerPaths_save` — **PROVED**: paths within the reader's limits are read back;
* `readPointerMap_save` — **PROVED**: the entries and modules of a map are;
* `pointer_files` — **PROVED**: what is read back agrees with what was saved, and no truncation
  of either file is read.
-/

namespace CheatEngine

open RecordFile ByteReader

/-! ### Names -/

/-- A `std::string` is a string of bytes. -/
def ByteText (name : String) : Prop := ∀ c ∈ name.toList, c.toNat < 256

def nameBytes (name : String) : List UInt8 := name.toList.map fun c => UInt8.ofNat c.toNat

def nameOfBytes (bytes : List UInt8) : String := String.ofList (bytes.map fun b => Char.ofNat b.toNat)

theorem nameOfBytes_nameBytes {name : String} (h : ByteText name) :
    nameOfBytes (nameBytes name) = name := by
  rw [nameOfBytes, nameBytes, List.map_map]
  have hchars : name.toList.map ((fun b : UInt8 => Char.ofNat b.toNat) ∘ fun c => UInt8.ofNat c.toNat)
      = name.toList := by
    refine (List.map_congr_left fun c hc => ?_).trans (List.map_id _)
    rw [Function.comp_apply, UInt8.toNat_ofNat', Nat.mod_eq_of_lt (h c hc), Char.ofNat_toNat]
    rfl
  rw [hchars, String.ofList_toList]

@[simp] theorem nameBytes_length (name : String) : (nameBytes name).length = name.length := by
  rw [nameBytes, List.length_map, String.length_toList]

/-! ### Path files -/

/-- `PSCAN001` -/
def pointerScanMagic : List UInt8 := [0x50, 0x53, 0x43, 0x41, 0x4e, 0x30, 0x30, 0x31]

def pointerScanVersion : ℕ := 1

def cut32 {α : Type} (xs : List α) : List α := xs.take (xs.length % 2 ^ 32)

def pathBytes (p : PointerPath) : List UInt8 :=
  leBytes 8 p.moduleBase.toNat ++ (leBytes 8 p.baseOffset.toNat ++
    (leBytes 4 (p.offsets.length % 2 ^ 32) ++ (leBytes 4 ((nameBytes p.module).length % 2 ^ 32) ++
      (cut32 (nameBytes p.module) ++
        (cut32 p.offsets).flatMap fun off => leBytes 4 off.toUInt32.toNat))))

def savePointerPaths (paths : List PointerPath) : List UInt8 :=
  pointerScanMagic ++ (leBytes 4 pointerScanVersion ++ (leBytes 4 (paths.length % 2 ^ 32) ++
    paths.flatMap pathBytes))

/-- The name and the offsets of a record. -/
def readPathFields (base baseOff offCount nameLen : ℕ) : Reader PointerPath := do
  require (!(decide (offCount > 64) || decide (nameLen > 2 ^ 16))) "record fields out of range"
  let name ← readAll nameLen "truncated module name"
  let offsets ← readMany (readNat 4 "truncated offset list") offCount
  return ⟨nameOfBytes name, UInt64.ofNat base, UInt64.ofNat baseOff,
    offsets.map fun n => (UInt32.ofNat n).toInt32⟩

def readPath : Reader PointerPath := do
  let base ← readNat 8 "truncated record header"
  let baseOff ← readNat 8 "truncated record header"
  let offCount ← readNat 4 "truncated record header"
  let nameLen ← readNat 4 "truncated record header"
  readPathFields base baseOff offCount nameLen

def readPointerPaths : Reader (List PointerPath) := do
  let magic ← readAll 8 "bad magic"
  require (magic == pointerScanMagic) "bad magic"
  let version ← readNat 4 "unsupported version"
  require (version == pointerScanVersion) "unsupported version"
  let count ← readNat 4 "truncated header"
  require (!decide (count > 2 ^ 28)) "path count too large"
  readMany readPath count

/-- The paths of a file, which may be missing, or why there are none. -/
def loadPointerPaths (file : Option (List UInt8)) : Except String (List PointerPath) :=
  match file with
  | none => .error "open failed"
  | some contents => (readPointerPaths contents).map Prod.fst

/-! ### Map files -/

/-- A map with the `is64bit` of its modules. -/
structure ModuleWidths where
  map : PointerMap
  is64bit : List Bool
  complete : is64bit.length = map.modules.length

/-- `PMAP0001` -/
def pointerMapMagic : List UInt8 := [0x50, 0x4d, 0x41, 0x50, 0x30, 0x30, 0x30, 0x31]

def entryBytes (e : Entry) : List UInt8 := leBytes 8 e.pointsTo.toNat ++ leBytes 8 e.locatedAt.toNat

def moduleBytes (m : ModuleInfo × Bool) : List UInt8 :=
  leBytes 8 m.1.base.toNat ++ (leBytes 8 m.1.size.toNat ++
    (leBytes 4 ((nameBytes m.1.name).length % 2 ^ 32) ++ (leBytes 1 (if m.2 then 1 else 0) ++
      cut32 (nameBytes m.1.name))))

/-- `PointerMap::save`. -/
def ModuleWidths.save (m : ModuleWidths) : List UInt8 :=
  pointerMapMagic ++ (leBytes 8 m.map.byTarget.length ++ (leBytes 8 m.map.modules.length ++
    (m.map.byTarget.flatMap entryBytes ++ (m.map.modules.zip m.is64bit).flatMap moduleBytes)))

def readEntry : Reader Entry := do
  let pt ← readNat 8 "truncated entries"
  let la ← readNat 8 "truncated entries"
  return ⟨UInt64.ofNat pt, UInt64.ofNat la⟩

def readModuleName (base size nameLen is64 : ℕ) : Reader (ModuleInfo × Bool) := do
  require (!decide (nameLen > 2 ^ 16)) "module name too long"
  let name ← readAll nameLen "truncated module name"
  return (⟨UInt64.ofNat base, UInt64.ofNat size, nameOfBytes name⟩, is64 != 0)

def readModule : Reader (ModuleInfo × Bool) := do
  let base ← readNat 8 "truncated module"
  let size ← readNat 8 "truncated module"
  let nameLen ← readNat 4 "truncated module"
  let is64 ← readNat 1 "truncated module"
  readModuleName base size nameLen is64

/-- The entries and modules that `PointerMap::load` takes from a file. -/
def readPointerMap : Reader (List Entry × List (ModuleInfo × Bool)) := do
  let magic ← readAll 8 "bad magic"
  require (magic == pointerMapMagic) "bad magic"
  let nEntries ← readNat 8 "truncated header"
  let nModules ← readNat 8 "truncated header"
  require (!(decide (nEntries > 2 ^ 32) || decide (nModules > 2 ^ 20))) "counts too large"
  let entries ← readMany readEntry nEntries
  let modules ← readMany readModule nModules
  return (entries, modules)

/-- What `PointerMap::load` gives to `setEntries` and `setModules`, or why it fails. -/
def loadPointerMap (file : Option (List UInt8)) :
    Except String (List Entry × List (ModuleInfo × Bool)) :=
  match file with
  | none => .error "open failed"
  | some contents => (readPointerMap contents).map Prod.fst

/-- A map that `PointerMap::load` may return: the sorts leave entries with equal keys in any
order, and the flag of a new map is not set. -/
structure ModuleWidths.LoadedFrom (loaded : ModuleWidths) (file : Option (List UInt8)) : Prop where
  read : ∃ entries modules, loadPointerMap file = .ok (entries, modules) ∧
    loaded.map.byTarget.Perm entries ∧ loaded.map.modules = modules.map Prod.fst ∧
    loaded.is64bit = modules.map Prod.snd
  truncated : loaded.map.truncated = false

/-! ### Cut lengths -/

theorem cut32_length {α : Type} (xs : List α) : (cut32 xs).length = xs.length % 2 ^ 32 := by
  rw [cut32, List.length_take]
  exact Nat.min_eq_left (Nat.mod_le _ _)

theorem cut32_eq {α : Type} {xs : List α} (h : xs.length < 2 ^ 32) : cut32 xs = xs := by
  rw [cut32, Nat.mod_eq_of_lt h, List.take_length]

/-! ### Reading paths back -/

structure PointerPath.WithinLimits (p : PointerPath) : Prop where
  text : ByteText p.module
  offsets : p.offsets.length ≤ 64
  name : p.module.length ≤ 2 ^ 16

theorem reads_offsets (offsets : List Int32) (message : String) :
    Reads (readMany (readNat 4 message) offsets.length)
      (offsets.flatMap fun off => leBytes 4 off.toUInt32.toNat)
      (offsets.map fun off => off.toUInt32.toNat) := by
  have hread := @Reads.readMany _ (readNat 4 message) (leBytes 4)
    (offsets.map fun off => off.toUInt32.toNat) fun n hn => by
      obtain ⟨off, -, rfl⟩ := List.mem_map.mp hn
      exact reads_readNat (k := 4) off.toUInt32.toNat_lt message
  rwa [List.length_map, List.flatMap_map] at hread

/-- The record as it stands in the file. -/
def PointerPath.cut (p : PointerPath) : PointerPath :=
  { p with module := nameOfBytes (cut32 (nameBytes p.module)), offsets := cut32 p.offsets }

theorem PointerPath.WithinLimits.cut {p : PointerPath} (h : p.WithinLimits) : p.cut = p := by
  rw [PointerPath.cut, cut32_eq (by rw [nameBytes_length]; have := h.name; omega),
    cut32_eq (by have := h.offsets; omega), nameOfBytes_nameBytes h.text]

theorem reads_pathData (p : PointerPath) :
    Reads (do
        let name ← readAll ((nameBytes p.module).length % 2 ^ 32) "truncated module name"
        let offsets ← readMany (readNat 4 "truncated offset list") (p.offsets.length % 2 ^ 32)
        return (⟨nameOfBytes name, UInt64.ofNat p.moduleBase.toNat,
          UInt64.ofNat p.baseOffset.toNat,
          offsets.map fun n => (UInt32.ofNat n).toInt32⟩ : PointerPath))
      (cut32 (nameBytes p.module) ++
        (cut32 p.offsets).flatMap fun off => leBytes 4 off.toUInt32.toNat) p.cut := by
  have hoffsets := reads_offsets (cut32 p.offsets) "truncated offset list"
  rw [cut32_length] at hoffsets
  have hback : ((cut32 p.offsets).map fun off => off.toUInt32.toNat).map
      (fun n => (UInt32.ofNat n).toInt32) = cut32 p.offsets := by
    rw [List.map_map]
    refine (List.map_congr_left fun off _ => ?_).trans (List.map_id _)
    rw [Function.comp_apply, UInt32.ofNat_toNat]
    rfl
  refine (reads_readAll (cut32_length _) "truncated module name").bind ?_
  have hlast := hoffsets.mapped fun offsets =>
    (⟨nameOfBytes (cut32 (nameBytes p.module)), UInt64.ofNat p.moduleBase.toNat,
      UInt64.ofNat p.baseOffset.toNat, offsets.map fun n => (UInt32.ofNat n).toInt32⟩ :
      PointerPath)
  rw [hback, UInt64.ofNat_toNat, UInt64.ofNat_toNat] at hlast
  rw [UInt64.ofNat_toNat, UInt64.ofNat_toNat]
  exact hlast

theorem readPath_spec (p : PointerPath) :
    (p.offsets.length ≤ 64 → (nameBytes p.module).length ≤ 2 ^ 16 →
        Reads readPath (pathBytes p) p.cut) ∧
      Decides readPath (pathBytes p) := by
  have hmod : ∀ n : ℕ, n % 2 ^ 32 < 256 ^ 4 := fun n => Nat.mod_lt n (by decide)
  have hfields : Decides (readPathFields p.moduleBase.toNat p.baseOffset.toNat
      (p.offsets.length % 2 ^ 32) ((nameBytes p.module).length % 2 ^ 32))
      (cut32 (nameBytes p.module) ++
        (cut32 p.offsets).flatMap fun off => leBytes 4 off.toUInt32.toNat) :=
    Decides.checked _ "record fields out of range" (Or.inl ⟨p.cut, reads_pathData p⟩)
  refine ⟨fun hoff hname => ?_, ?_⟩
  · refine (reads_readNat (k := 8) p.moduleBase.toNat_lt "truncated record header").bind
      ((reads_readNat (k := 8) p.baseOffset.toNat_lt "truncated record header").bind
        ((reads_readNat (k := 4) (hmod _) "truncated record header").bind
          ((reads_readNat (k := 4) (hmod _) "truncated record header").bind
            (Reads.checked ?_ _ (reads_pathData p)))))
    rw [Nat.mod_eq_of_lt (by omega), Nat.mod_eq_of_lt (by omega),
      decide_eq_false (by omega), decide_eq_false (by omega)]
    rfl
  · exact (reads_readNat (k := 8) p.moduleBase.toNat_lt "truncated record header").bind_decides
      ((reads_readNat (k := 8) p.baseOffset.toNat_lt "truncated record header").bind_decides
        ((reads_readNat (k := 4) (hmod _) "truncated record header").bind_decides
          ((reads_readNat (k := 4) (hmod _) "truncated record header").bind_decides hfields)))

theorem readPath_reads {p : PointerPath} (h : p.WithinLimits) : Reads readPath (pathBytes p) p := by
  have hread := (readPath_spec p).1 h.offsets (by rw [nameBytes_length]; exact h.name)
  rwa [h.cut] at hread

theorem readPointerPaths_save {paths : List PointerPath} (hlen : paths.length ≤ 2 ^ 28)
    (h : ∀ p ∈ paths, p.WithinLimits) :
    Reads readPointerPaths (savePointerPaths paths) paths := by
  have hrecords : Reads (readMany readPath paths.length) (paths.flatMap pathBytes) paths :=
    Reads.readMany fun p hp => readPath_reads (h p hp)
  rw [savePointerPaths, Nat.mod_eq_of_lt (by omega)]
  refine (reads_readAll (n := 8) rfl "bad magic").bind ?_
  refine Reads.checked (by decide) "bad magic" ?_
  refine (reads_readNat (k := 4) (by decide) "unsupported version").bind ?_
  refine Reads.checked (by decide) "unsupported version" ?_
  refine (reads_readNat (k := 4) (by omega) "truncated header").bind ?_
  refine Reads.checked ?_ _ hrecords
  rw [decide_eq_false (by omega)]
  rfl

theorem readPointerPaths_decides {paths : List PointerPath} (hlen : paths.length < 2 ^ 32) :
    Decides readPointerPaths (savePointerPaths paths) := by
  have hrecords : Decides (readMany readPath paths.length) (paths.flatMap pathBytes) :=
    Decides.readMany fun p _ => (readPath_spec p).2
  rw [savePointerPaths, Nat.mod_eq_of_lt hlen]
  refine (reads_readAll (n := 8) rfl "bad magic").bind_decides ?_
  refine Decides.checked _ "bad magic" ?_
  refine (reads_readNat (k := 4) (by decide) "unsupported version").bind_decides ?_
  refine Decides.checked _ "unsupported version" ?_
  refine (reads_readNat (k := 4) (by omega) "truncated header").bind_decides ?_
  exact Decides.checked _ _ hrecords

/-! ### Reading maps back -/

structure ModuleInfo.WithinLimits (m : ModuleInfo) : Prop where
  text : ByteText m.name
  name : m.name.length ≤ 2 ^ 16

theorem readEntry_reads (e : Entry) : Reads readEntry (entryBytes e) e := by
  have hlast := (reads_readNat (k := 8) e.locatedAt.toNat_lt "truncated entries").mapped
    fun la => (⟨UInt64.ofNat e.pointsTo.toNat, UInt64.ofNat la⟩ : Entry)
  rw [UInt64.ofNat_toNat, UInt64.ofNat_toNat] at hlast
  refine (reads_readNat (k := 8) e.pointsTo.toNat_lt "truncated entries").bind ?_
  rw [UInt64.ofNat_toNat]
  exact hlast

theorem width_lt (wide : Bool) : (if wide then 1 else 0) < 256 ^ 1 := by
  cases wide <;> decide

theorem reads_moduleName (m : ModuleInfo × Bool) :
    Reads (do
        let name ← readAll ((nameBytes m.1.name).length % 2 ^ 32) "truncated module name"
        return ((⟨UInt64.ofNat m.1.base.toNat, UInt64.ofNat m.1.size.toNat, nameOfBytes name⟩ :
          ModuleInfo), (if m.2 then 1 else 0) != 0))
      (cut32 (nameBytes m.1.name))
      ({ m.1 with name := nameOfBytes (cut32 (nameBytes m.1.name)) }, m.2) := by
  have hwide : ((if m.2 then 1 else 0) != 0) = m.2 := by cases m.2 <;> rfl
  have hread := (reads_readAll (cut32_length (nameBytes m.1.name)) "truncated module name").mapped
    fun name => ((⟨UInt64.ofNat m.1.base.toNat, UInt64.ofNat m.1.size.toNat, nameOfBytes name⟩ :
      ModuleInfo), (if m.2 then 1 else 0) != 0)
  rw [UInt64.ofNat_toNat, UInt64.ofNat_toNat, hwide] at hread
  rw [UInt64.ofNat_toNat, UInt64.ofNat_toNat, hwide]
  exact hread

theorem readModule_decides (m : ModuleInfo × Bool) : Decides readModule (moduleBytes m) := by
  have hmod : (nameBytes m.1.name).length % 2 ^ 32 < 256 ^ 4 := Nat.mod_lt _ (by decide)
  have hname : Decides (readModuleName m.1.base.toNat m.1.size.toNat
      ((nameBytes m.1.name).length % 2 ^ 32) (if m.2 then 1 else 0))
      (cut32 (nameBytes m.1.name)) :=
    Decides.checked _ "module name too long" (Or.inl ⟨_, reads_moduleName m⟩)
  exact (reads_readNat (k := 8) m.1.base.toNat_lt "truncated module").bind_decides
    ((reads_readNat (k := 8) m.1.size.toNat_lt "truncated module").bind_decides
      ((reads_readNat (k := 4) hmod "truncated module").bind_decides
        ((reads_readNat (k := 1) (width_lt m.2) "truncated module").bind_decides hname)))

theorem readModule_reads {m : ModuleInfo × Bool} (h : m.1.WithinLimits) :
    Reads readModule (moduleBytes m) m := by
  have hlen : (nameBytes m.1.name).length ≤ 2 ^ 16 := by
    rw [nameBytes_length]
    exact h.name
  have hmod : (nameBytes m.1.name).length % 2 ^ 32 < 256 ^ 4 := Nat.mod_lt _ (by decide)
  have hname := reads_moduleName m
  rw [show nameOfBytes (cut32 (nameBytes m.1.name)) = m.1.name by
    rw [cut32_eq (by omega), nameOfBytes_nameBytes h.text]] at hname
  refine (reads_readNat (k := 8) m.1.base.toNat_lt "truncated module").bind
    ((reads_readNat (k := 8) m.1.size.toNat_lt "truncated module").bind
      ((reads_readNat (k := 4) hmod "truncated module").bind
        ((reads_readNat (k := 1) (width_lt m.2) "truncated module").bind
          (Reads.checked ?_ _ hname))))
  rw [Nat.mod_eq_of_lt (by omega), decide_eq_false (by omega)]
  rfl

def ModuleWidths.modules (m : ModuleWidths) : List (ModuleInfo × Bool) :=
  m.map.modules.zip m.is64bit

theorem ModuleWidths.modules_length (m : ModuleWidths) :
    m.modules.length = m.map.modules.length := by
  rw [modules, List.length_zip, m.complete, Nat.min_self]

theorem ModuleWidths.modules_fst (m : ModuleWidths) : m.modules.map Prod.fst = m.map.modules :=
  List.map_fst_zip m.complete.ge

theorem ModuleWidths.modules_snd (m : ModuleWidths) : m.modules.map Prod.snd = m.is64bit :=
  List.map_snd_zip m.complete.le

/-- A map that the reader accepts. -/
structure ModuleWidths.WithinLimits (m : ModuleWidths) : Prop where
  modules : m.map.modules.length ≤ 2 ^ 20
  names : ∀ info ∈ m.map.modules, info.WithinLimits

theorem readPointerMap_save {m : ModuleWidths} (h : m.WithinLimits) :
    Reads readPointerMap m.save (m.map.byTarget, m.modules) := by
  have hsize := m.map.size_le
  have hentries : Reads (readMany readEntry m.map.byTarget.length)
      (m.map.byTarget.flatMap entryBytes) m.map.byTarget :=
    Reads.readMany fun e _ => readEntry_reads e
  have hmodules : Reads (readMany readModule m.map.modules.length)
      (m.modules.flatMap moduleBytes) m.modules := by
    rw [← m.modules_length]
    refine Reads.readMany fun info hinfo => readModule_reads (h.names _ ?_)
    rw [← m.modules_fst]
    exact List.mem_map_of_mem hinfo
  rw [ModuleWidths.save]
  refine (reads_readAll (n := 8) rfl "bad magic").bind ?_
  refine Reads.checked (by decide) "bad magic" ?_
  refine (reads_readNat (k := 8) (by omega) "truncated header").bind ?_
  refine (reads_readNat (k := 8) (by have := h.modules; omega) "truncated header").bind ?_
  refine Reads.checked ?_ _ (hentries.bind ?_)
  · rw [decide_eq_false (by omega), decide_eq_false (by have := h.modules; omega)]
    rfl
  · exact hmodules.mapped (m.map.byTarget, ·)

theorem readPointerMap_decides {m : ModuleWidths} (h : m.map.modules.length < 2 ^ 64) :
    Decides readPointerMap m.save := by
  have hsize := m.map.size_le
  have hentries : Reads (readMany readEntry m.map.byTarget.length)
      (m.map.byTarget.flatMap entryBytes) m.map.byTarget :=
    Reads.readMany fun e _ => readEntry_reads e
  have hmodules : Decides (readMany readModule m.map.modules.length)
      (m.modules.flatMap moduleBytes) := by
    rw [← m.modules_length]
    exact Decides.readMany fun info _ => readModule_decides info
  rw [ModuleWidths.save]
  refine (reads_readAll (n := 8) rfl "bad magic").bind_decides ?_
  refine Decides.checked _ "bad magic" ?_
  refine (reads_readNat (k := 8) (by omega) "truncated header").bind_decides ?_
  refine (reads_readNat (k := 8) h "truncated header").bind_decides ?_
  refine Decides.checked _ _ (hentries.bind_decides ?_)
  exact hmodules.mapped (m.map.byTarget, ·)

/-! ### Loading what was saved -/

theorem loads_of_reads {α : Type} {p : Reader α} {bytes : List UInt8} {a : α}
    (h : Reads p bytes a) : (p bytes).map Prod.fst = .ok a := by
  have hread := h.exact []
  rw [List.append_nil] at hread
  rw [hread]
  rfl

/-- No truncation of a file that is read or refused is read. -/
theorem fails_of_decides {α : Type} {p : Reader α} {bytes cut : List UInt8} (h : Decides p bytes)
    (hcut : cut <+: bytes) (hne : cut ≠ bytes) :
    ∃ message, (p cut).map Prod.fst = .error message := by
  obtain ⟨message, hfail⟩ := h.strictPrefix hcut hne
  exact ⟨message, by rw [hfail]; rfl⟩

structure ModuleWidths.SameAs (loaded saved : ModuleWidths) : Prop where
  entries : loaded.map.byTarget.Perm saved.map.byTarget
  modules : loaded.map.modules = saved.map.modules
  is64bit : loaded.is64bit = saved.is64bit

theorem loadPointerMap_save {m : ModuleWidths} (h : m.WithinLimits) :
    loadPointerMap (some m.save) = .ok (m.map.byTarget, m.modules) := by
  rw [loadPointerMap, loads_of_reads (readPointerMap_save h)]

theorem ModuleWidths.LoadedFrom.sameAs {m loaded : ModuleWidths} (h : m.WithinLimits)
    (hload : loaded.LoadedFrom (some m.save)) : loaded.SameAs m := by
  obtain ⟨entries, modules, hread, hperm, hmodules, hwidths⟩ := hload.read
  rw [loadPointerMap_save h, Except.ok.injEq, Prod.mk.injEq] at hread
  rw [← hread.1] at hperm
  rw [← hread.2] at hmodules hwidths
  exact ⟨hperm, hmodules.trans m.modules_fst, hwidths.trans m.modules_snd⟩

theorem ModuleWidths.exists_loaded {m : ModuleWidths} (h : m.WithinLimits) :
    ∃ loaded : ModuleWidths, loaded.LoadedFrom (some m.save) :=
  ⟨⟨PointerMap.setEntries m.map.byTarget m.map.modules false m.map.size_le, m.is64bit, m.complete⟩,
    ⟨_, _, loadPointerMap_save h, BinarySearch.sortBy_perm _ _,
      m.modules_fst.symm, m.modules_snd.symm⟩, rfl⟩

theorem PointerMap.valueAt_perm {map map' : PointerMap} (h : map'.byTarget.Perm map.byTarget)
    (hd : map.DistinctSlots) (addr : UInt64) : map'.valueAt addr = map.valueAt addr := by
  have hd' : map'.DistinctSlots := (h.map Entry.locatedAt).nodup_iff.mpr hd
  have hfinds : ∀ {m m' : PointerMap}, m'.byTarget.Perm m.byTarget → m.DistinctSlots →
      ∀ v, m'.valueAt addr = some v → m.valueAt addr = some v := by
    intro m m' hperm hdist v hv
    obtain ⟨i, hi, hloc, hval⟩ := PointerMap.valueAt_eq_some hv
    obtain ⟨j, hj, hsame⟩ := m.exists_entry (hperm.mem_iff.mp (m'.entry_mem hi))
    rw [← hloc, ← hsame, PointerMap.valueAt_locatedAt hdist hj, hsame, hval]
  refine Option.ext fun v => ⟨hfinds h hd v, hfinds h.symm hd' v⟩

/-- Pointer files: what is saved within the reader's limits is loaded again, and no truncation of
a saved file is loaded. -/
theorem pointer_files :
    (∀ paths : List PointerPath, paths.length ≤ 2 ^ 28 → (∀ p ∈ paths, p.WithinLimits) →
      loadPointerPaths (some (savePointerPaths paths)) = .ok paths) ∧
    (∀ m : ModuleWidths, m.WithinLimits →
      (∃ loaded : ModuleWidths, loaded.LoadedFrom (some m.save)) ∧
      ∀ loaded : ModuleWidths, loaded.LoadedFrom (some m.save) → loaded.SameAs m ∧
        (m.map.DistinctSlots → ∀ addr, loaded.map.valueAt addr = m.map.valueAt addr)) ∧
    (∀ (paths : List PointerPath) cut, paths.length < 2 ^ 32 → cut <+: savePointerPaths paths →
      cut ≠ savePointerPaths paths → ∃ message, loadPointerPaths (some cut) = .error message) ∧
    ∀ (m : ModuleWidths) cut, m.map.modules.length < 2 ^ 64 → cut <+: m.save → cut ≠ m.save →
      ∃ message, loadPointerMap (some cut) = .error message :=
  ⟨fun _ hlen h => loads_of_reads (readPointerPaths_save hlen h),
    fun _ h => ⟨ModuleWidths.exists_loaded h, fun _ hload =>
      ⟨hload.sameAs h, fun hd => PointerMap.valueAt_perm (hload.sameAs h).entries hd⟩⟩,
    fun _ _ hlen hcut hne => fails_of_decides (readPointerPaths_decides hlen) hcut hne,
    fun _ _ hlen hcut hne => fails_of_decides (readPointerMap_decides hlen) hcut hne⟩

theorem nameText_game : ByteText "game" := by
  rw [ByteText, show "game".toList = ['g', 'a', 'm', 'e'] from rfl]
  simp only [List.forall_mem_cons]
  exact ⟨by decide, by decide, by decide, by decide, nofun⟩

/-- A path of two levels and a module of 64 bits survive, and half a header does not. -/
theorem small_pointer_files :
    loadPointerPaths (some (savePointerPaths [⟨"game", 0x400000, 0x10, [-8, 32]⟩])) =
        .ok [⟨"game", 0x400000, 0x10, [-8, 32]⟩] ∧
      (∃ loaded : ModuleWidths, loaded.LoadedFrom (some (ModuleWidths.save ⟨PointerMap.setEntries
        [⟨5, 0x1008⟩] [⟨0x1000, 0x1000, "game"⟩] false (by decide), [true], rfl⟩))) ∧
      (∃ message, loadPointerPaths (some (pointerScanMagic ++ [1, 0])) = .error message) ∧
      ∃ message, loadPointerMap (some pointerMapMagic) = .error message := by
  obtain ⟨hpaths, hmaps, hcutPaths, hcutMaps⟩ := pointer_files
  refine ⟨hpaths _ (by decide) fun p hp => ?_, (hmaps _ ⟨by decide, fun info hinfo => ?_⟩).1,
    hcutPaths [] _ (by decide) (by decide) (by decide),
    hcutMaps ⟨PointerMap.setEntries [] [] false (by decide), [], rfl⟩ _ (by decide) ?_ ?_⟩
  · rw [List.mem_singleton.mp hp]
    exact ⟨nameText_game, by decide, by decide⟩
  · rw [List.mem_singleton.mp hinfo]
    exact ⟨nameText_game, by decide⟩
  · exact ⟨_, rfl⟩
  · intro heq
    have := congrArg List.length heq
    rw [ModuleWidths.save, List.length_append, List.length_append, leBytes_length] at this
    omega

end CheatEngine
