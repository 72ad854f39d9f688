import CheatEngineLinux.Library.BinarySearch
import Mathlib.Data.List.GetD
import Mathlib.Tactic

/-!
# The pointer map: a snapshot of a process's pointer graph

`scanner/pointer_scanner.hpp` keeps every pointer-shaped value twice: `byTarget_` sorted by
the address it points to (a scan's reverse search) and `byLocated_`, 32-bit indices into it
sorted by the address that holds the value (resolving a saved path).  Both sorts are
`std::sort`, which leaves entries with equal keys in any order, so the map is a structure
whose fields state what the sorts guarantee and nothing more; `setEntries` is one way to
fill it.

* `PointerMap` — both indices, the module list and the truncation flag.  The entry limit is
  the one every producer of a map enforces (`buildPointerMap` cuts at `UINT32_MAX`, `load`
  rejects more than `2^32`), which is what makes the 32-bit indices exact;
* `valueAt` / `valueAt_locatedAt` — **PROVED**: the binary search by location finds a
  recorded slot whenever there is one;
* `resolve` — the walk of a path through the snapshot, with 64-bit wrap-around.
-/

namespace CheatEngine

/-- One recorded pointer: the slot `locatedAt` holds the value `pointsTo`. -/
structure Entry where
  pointsTo : UInt64
  locatedAt : UInt64
  deriving Repr, DecidableEq, Inhabited

/-- A loaded module, as far as pointer paths use it. -/
structure ModuleInfo where
  base : UInt64
  size : UInt64
  name : String
  deriving Repr, DecidableEq, Inhabited

/-- A pointer path: `module+baseOffset → [offset1] → [offset2] → … → target`. -/
structure PointerPath where
  module : String
  moduleBase : UInt64
  baseOffset : UInt64
  offsets : List Int32
  deriving Repr, DecidableEq, Inhabited

/-- `addr + off` with a signed 32-bit offset converted to the address type. -/
def addOffset (addr : UInt64) (off : Int32) : UInt64 := addr + off.toInt64.toUInt64

/-- `static_cast<int32_t>` of a 64-bit difference: its low 32 bits. -/
def toOffset (d : UInt64) : Int32 := d.toUInt32.toInt32

theorem toInt_setWidth_of_fits (d : BitVec 64) (h1 : -2 ^ 31 ≤ d.toInt) (h2 : d.toInt < 2 ^ 31) :
    (d.setWidth 32).toInt = d.toInt := by
  rw [BitVec.toInt_setWidth]
  rw [BitVec.toInt_eq_toNat_bmod] at *
  simp only [Int.bmod] at *
  have := d.isLt
  omega

/-- The signed value of an address difference, where the addresses are close. -/
theorem sub_toInt (a b : UInt64) (h1 : -2 ^ 31 ≤ (a.toNat : ℤ) - b.toNat)
    (h2 : (a.toNat : ℤ) - b.toNat < 2 ^ 31) :
    (a - b).toBitVec.toInt = (a.toNat : ℤ) - b.toNat := by
  have hn : (a - b).toBitVec.toNat = (2 ^ 64 - b.toNat + a.toNat) % 2 ^ 64 := UInt64.toNat_sub a b
  have ha := a.toNat_lt
  have hb := b.toNat_lt
  rw [BitVec.toInt_eq_toNat_bmod, hn]
  simp only [Int.bmod]
  omega

theorem toOffset_toInt (a b : UInt64) (h1 : -2 ^ 31 ≤ (a.toNat : ℤ) - b.toNat)
    (h2 : (a.toNat : ℤ) - b.toNat < 2 ^ 31) :
    (toOffset (a - b)).toInt = (a.toNat : ℤ) - b.toNat := by
  have hd := sub_toInt a b h1 h2
  change ((a - b).toBitVec.setWidth 32).toInt = _
  rw [toInt_setWidth_of_fits _ (by omega) (by omega), hd]

theorem addOffset_toOffset (a b : UInt64) (h1 : -2 ^ 31 ≤ (a.toNat : ℤ) - b.toNat)
    (h2 : (a.toNat : ℤ) - b.toNat < 2 ^ 31) : addOffset b (toOffset (a - b)) = a := by
  have hd := sub_toInt a b h1 h2
  have hs : (toOffset (a - b)).toInt64.toUInt64 = a - b := by
    apply UInt64.eq_of_toBitVec_eq
    apply BitVec.eq_of_toInt_eq
    change (BitVec.signExtend 64 ((a - b).toBitVec.setWidth 32)).toInt = _
    rw [BitVec.toInt_signExtend_of_le (by decide),
      toInt_setWidth_of_fits _ (by omega) (by omega)]
  rw [addOffset, hs]
  grind

/-- Both indices of a snapshot with the module list it was taken with. -/
structure PointerMap where
  byTarget : List Entry
  byLocated : List ℕ
  modules : List ModuleInfo
  truncated : Bool
  sorted : byTarget.Pairwise fun a b => a.pointsTo.toNat ≤ b.pointsTo.toNat
  size_le : byTarget.length ≤ 2 ^ 32
  indexed : byLocated.Perm (List.range byTarget.length)
  ordered : byLocated.Pairwise fun i j =>
    (byTarget.getD i default).locatedAt.toNat ≤ (byTarget.getD j default).locatedAt.toNat

namespace PointerMap

/-- The entry at a position of `byTarget_`. -/
def entry (map : PointerMap) (i : ℕ) : Entry := map.byTarget.getD i default

theorem entry_mem (map : PointerMap) {i : ℕ} (hi : i < map.byTarget.length) :
    map.entry i ∈ map.byTarget := by
  rw [entry, List.getD_eq_getElem _ _ hi]
  exact List.getElem_mem hi

theorem exists_entry (map : PointerMap) {e : Entry} (he : e ∈ map.byTarget) :
    ∃ i < map.byTarget.length, map.entry i = e := by
  obtain ⟨i, hi, h⟩ := List.getElem_of_mem he
  exact ⟨i, hi, by rw [entry, List.getD_eq_getElem _ _ hi, h]⟩

/-- The pointer value stored at `addr` in the snapshot. -/
def valueAt (map : PointerMap) (addr : UInt64) : Option UInt64 :=
  let lo := BinarySearch.lowerBound (fun idx => (map.entry idx).locatedAt.toNat)
    map.byLocated addr.toNat
  match map.byLocated[lo]? with
  | some idx =>
    if (map.entry idx).locatedAt = addr then some (map.entry idx).pointsTo else none
  | none => none

def moduleBase (map : PointerMap) (name : String) : UInt64 :=
  match map.modules.find? (fun m => m.name == name) with
  | some m => m.base
  | none => 0

/-- Follow the offsets of a path from `addr`, reading every slot from the snapshot. -/
def follow (map : PointerMap) : UInt64 → List Int32 → UInt64
  | addr, [] => addr
  | addr, off :: rest =>
    match map.valueAt addr with
    | some v => if v = 0 then 0 else follow map (addOffset v off) rest
    | none => 0

/-- Resolve a path using only the snapshot; 0 when the module or a link is missing. -/
def resolve (map : PointerMap) (path : PointerPath) : UInt64 :=
  if path.module.isEmpty then map.follow path.baseOffset path.offsets
  else
    let base := map.moduleBase path.module
    if base = 0 then 0 else map.follow (base + path.baseOffset) path.offsets

/-- Pairwise distinct slots: no address holds two recorded values. -/
def DistinctSlots (map : PointerMap) : Prop :=
  (map.byTarget.map Entry.locatedAt).Nodup

theorem entry_eq_of_locatedAt {map : PointerMap} (hd : map.DistinctSlots) {i j : ℕ}
    (hi : i < map.byTarget.length) (hj : j < map.byTarget.length)
    (h : (map.entry i).locatedAt = (map.entry j).locatedAt) : i = j := by
  have hinj := List.nodup_iff_injective_getElem.mp hd
  have hi' : i < (map.byTarget.map Entry.locatedAt).length := by simpa using hi
  have hj' : j < (map.byTarget.map Entry.locatedAt).length := by simpa using hj
  have := @hinj ⟨i, hi'⟩ ⟨j, hj'⟩ (by
    simp only [List.getElem_map]
    rw [entry, entry, List.getD_eq_getElem _ _ hi, List.getD_eq_getElem _ _ hj] at h
    exact h)
  exact congrArg Fin.val this

theorem valueAt_locatedAt {map : PointerMap} (hd : map.DistinctSlots) {i : ℕ}
    (hi : i < map.byTarget.length) :
    map.valueAt (map.entry i).locatedAt = some (map.entry i).pointsTo := by
  set key : ℕ → ℕ := fun idx => (map.entry idx).locatedAt.toNat with hkey
  have hs : map.byLocated.Pairwise fun a b => key a ≤ key b := map.ordered
  have hmem : i ∈ map.byLocated := map.indexed.mem_iff.mpr (List.mem_range.mpr hi)
  obtain ⟨k, hk, hki⟩ := List.getElem_of_mem hmem
  set lo := BinarySearch.lowerBound key map.byLocated (map.entry i).locatedAt.toNat with hlo
  -- the first position not below the slot's address is at most the slot's own position
  have hlok : lo ≤ k := by
    by_contra hlt
    have := (BinarySearch.lt_lowerBound_iff hs (map.entry i).locatedAt.toNat k hk).mp (by omega)
    rw [hki] at this
    exact lt_irrefl _ this
  have hlen : lo < map.byLocated.length := by omega
  have hge : (map.entry i).locatedAt.toNat ≤ key map.byLocated[lo] := by
    by_contra h
    have := (BinarySearch.lt_lowerBound_iff hs (map.entry i).locatedAt.toNat lo hlen).mpr
      (by omega)
    omega
  have hle : key map.byLocated[lo] ≤ (map.entry i).locatedAt.toNat := by
    have := BinarySearch.key_mono hs hlok hlen hk
    rw [hki] at this
    exact this
  have heq : (map.entry map.byLocated[lo]).locatedAt = (map.entry i).locatedAt :=
    UInt64.toNat_inj.mp (le_antisymm hle hge)
  have hidx : map.byLocated[lo] < map.byTarget.length :=
    List.mem_range.mp (map.indexed.mem_iff.mp (List.getElem_mem hlen))
  have hsame := entry_eq_of_locatedAt hd hidx hi heq
  unfold valueAt
  simp only [← hkey, ← hlo, List.getElem?_eq_getElem hlen, hsame, if_true]

theorem valueAt_eq_some {map : PointerMap} {addr v : UInt64} (h : map.valueAt addr = some v) :
    ∃ i < map.byTarget.length,
      (map.entry i).locatedAt = addr ∧ (map.entry i).pointsTo = v := by
  unfold valueAt at h
  simp only at h
  split at h
  · rename_i idx hidx
    have hlt : idx < map.byTarget.length :=
      List.mem_range.mp (map.indexed.mem_iff.mp (List.mem_of_getElem? hidx))
    by_cases hloc : (map.entry idx).locatedAt = addr
    · rw [if_pos hloc] at h
      exact ⟨idx, hlt, hloc, Option.some.inj h⟩
    · rw [if_neg hloc] at h
      cases h
  · cases h

/-- Sort the entries by target and rebuild the index by location. -/
def setEntries (entries : List Entry) (modules : List ModuleInfo) (truncated : Bool)
    (h : entries.length ≤ 2 ^ 32) : PointerMap where
  byTarget := BinarySearch.sortBy (fun e => e.pointsTo.toNat) entries
  byLocated :=
    let byTarget := BinarySearch.sortBy (fun e => e.pointsTo.toNat) entries
    BinarySearch.sortBy (fun i => (byTarget.getD i default).locatedAt.toNat)
      (List.range byTarget.length)
  modules := modules
  truncated := truncated
  sorted := BinarySearch.sortBy_sorted _ _
  size_le := by rw [(BinarySearch.sortBy_perm _ _).length_eq]; exact h
  indexed := BinarySearch.sortBy_perm _ _
  ordered := BinarySearch.sortBy_sorted _ _

end PointerMap

end CheatEngine
