import CheatEngineLinux.Library.BinarySearch
import CheatEngineLinux.Library.IntervalSweep
import Mathlib.Data.List.GetD
import Mathlib.Tactic

/-!
# Memory snapshots

`scanner/snapshot.cpp`: the bytes of a process's writable regions at one time, and what has
changed in them at another.

* `capture`, `recapture`, `diff` — the operations, with their 64-bit addresses as numbers;
* `diff_eq_changes` — **PROVED**: the difference of two snapshots is that of their bytes, address
  by address.
-/

namespace CheatEngine

/-- A captured region; of `size` bytes the first `bytes.length` were read. -/
structure SnapshotRegion where
  base : UInt64
  size : UInt64
  protection : UInt32
  bytes : List UInt8
  deriving Repr, DecidableEq

structure Snapshot where
  regions : List SnapshotRegion := []
  truncated : Bool := false
  deriving Repr, DecidableEq

namespace Snapshot

/-- The highest address. -/
def top : ℕ := 2 ^ 64 - 1

/-- The end of `len` bytes, clamped to the address space. -/
def clampedEnd (base len : ℕ) : ℕ := base + min len (top - base)

/-- The overlap of two ranges, as `[lo, hi)`. -/
def overlap (aBase aLen bBase bLen : ℕ) : Option (ℕ × ℕ) :=
  let lo := max aBase bBase
  let hi := min (clampedEnd aBase aLen) (clampedEnd bBase bLen)
  if lo < hi then some (lo, hi) else none

/-! ### Capturing -/

/-- What a process handle says of a region. -/
structure LiveRegion where
  base : UInt64
  size : UInt64
  protection : UInt32
  deriving Repr, DecidableEq

/-- `MemProt::Write` -/
def LiveRegion.writable (r : LiveRegion) : Bool := r.protection &&& 2 != 0

/-- The process handle: its regions, and the bytes a read returns (none for an error). -/
structure Process where
  queryRegions : List LiveRegion
  read : UInt64 → ℕ → Option (List UInt8)
  read_le : ∀ address n bytes, read address n = some bytes → bytes.length ≤ n

/-- The loop of `capture`. -/
def captureLoop (proc : Process) : ℕ → Snapshot → List LiveRegion → Snapshot
  | _, snap, [] => snap
  | budget, snap, r :: rest =>
    if !r.writable || r.size = 0 then captureLoop proc budget snap rest
    else if budget = 0 then { snap with truncated := true }
    else
      let take := min r.size.toNat budget
      let snap := if take < r.size.toNat then { snap with truncated := true } else snap
      match proc.read r.base take with
      | none => captureLoop proc budget snap rest
      | some bytes =>
        if bytes.length = 0 then captureLoop proc budget snap rest
        else captureLoop proc (budget - bytes.length)
          { snap with regions := snap.regions ++ [⟨r.base, r.size, r.protection, bytes⟩] } rest

/-- Every writable region, up to `maxBytes` bytes. -/
def capture (proc : Process) (maxBytes : UInt64) : Snapshot :=
  captureLoop proc maxBytes.toNat {} proc.queryRegions

def recapturePart (proc : Process) (saved : SnapshotRegion) (r : LiveRegion) :
    Option SnapshotRegion :=
  if !r.writable || r.size = 0 then none
  else
    match overlap saved.base.toNat saved.bytes.length r.base.toNat r.size.toNat with
    | none => none
    | some (lo, hi) =>
      match proc.read (UInt64.ofNat lo) (hi - lo) with
      | none => none
      | some bytes =>
        if bytes.length = 0 then none
        else some ⟨UInt64.ofNat lo, UInt64.ofNat (hi - lo), r.protection, bytes⟩

/-- The current bytes of the ranges a snapshot holds. -/
def recapture (snap : Snapshot) (proc : Process) : Snapshot :=
  { regions := snap.regions.flatMap fun saved =>
      proc.queryRegions.filterMap (recapturePart proc saved) }

/-! ### Comparing -/

structure ByteDiff where
  address : ℕ
  before : UInt8
  after : UInt8
  deriving Repr, DecidableEq

/-- The regions that hold bytes, in address order. -/
def sorted (regions : List SnapshotRegion) : List SnapshotRegion :=
  BinarySearch.sortBy (fun r : SnapshotRegion => r.base.toNat)
    (regions.filter fun r => !r.bytes.isEmpty)

def endOf (r : SnapshotRegion) : ℕ := clampedEnd r.base.toNat r.bytes.length

/-- The changed bytes so far, and their number. -/
structure DiffState where
  changed : ℕ := 0
  out : List ByteDiff := []
  deriving Repr, DecidableEq

/-- Records a differing byte. -/
def DiffState.push (maxDiffs : ℕ) (st : DiffState) (d : ByteDiff) : DiffState :=
  ⟨st.changed + 1, if st.out.length < maxDiffs then st.out ++ [d] else st.out⟩

/-- Compares two regions where they overlap. -/
def comparePair (maxDiffs : ℕ) (st : DiffState) (a b : SnapshotRegion) : DiffState :=
  match overlap a.base.toNat a.bytes.length b.base.toNat b.bytes.length with
  | none => st
  | some (lo, hi) =>
    (List.range (hi - lo)).foldl (fun st k =>
      let before := a.bytes.getD (lo - a.base.toNat + k) 0
      let after := b.bytes.getD (lo - b.base.toNat + k) 0
      if before == after then st else st.push maxDiffs ⟨lo + k, before, after⟩) st

/-- Walks both lists; the region that ends first is passed. -/
def diffLoop (maxDiffs : ℕ) : DiffState → List SnapshotRegion → List SnapshotRegion → DiffState
  | st, a :: as, b :: bs =>
    if endOf a ≤ endOf b then diffLoop maxDiffs (comparePair maxDiffs st a b) as (b :: bs)
    else diffLoop maxDiffs (comparePair maxDiffs st a b) (a :: as) bs
  | st, _, _ => st
termination_by _ as bs => as.length + bs.length

/-- The differing bytes, at most `maxDiffs`, and the number of all of them. -/
def diff (snap later : Snapshot) (maxDiffs : ℕ) : List ByteDiff × ℕ :=
  let st := diffLoop maxDiffs {} (sorted snap.regions) (sorted later.regions)
  (BinarySearch.sortBy ByteDiff.address st.out, st.changed)

/-! ### Which addresses a snapshot holds -/

/-- An address whose byte was captured. -/
def Covers (r : SnapshotRegion) (x : ℕ) : Prop :=
  r.base.toNat ≤ x ∧ x < r.base.toNat + r.bytes.length

/-- A snapshot has the byte `b` at `x`. -/
def Holds (snap : Snapshot) (x : ℕ) (b : UInt8) : Prop :=
  ∃ r ∈ snap.regions, r.base.toNat ≤ x ∧ r.bytes[x - r.base.toNat]? = some b

/-- No address is in two regions, and none has the highest address. -/
structure Separate (snap : Snapshot) : Prop where
  disjoint : snap.regions.Pairwise fun r s => ∀ x, ¬ (Covers r x ∧ Covers s x)
  belowTop : ∀ r ∈ snap.regions, ¬ Covers r top

section Diff

variable {snap later : Snapshot} {r : SnapshotRegion}

theorem endOf_eq (h : ¬ Covers r top) : endOf r = r.base.toNat + r.bytes.length := by
  have hbase := r.base.toNat_lt
  simp only [Covers, top, not_and, not_lt] at h
  rw [endOf, clampedEnd, top]
  omega

theorem mem_sorted {regions : List SnapshotRegion} :
    r ∈ sorted regions ↔ r ∈ regions ∧ r.bytes ≠ [] := by
  rw [sorted, (BinarySearch.sortBy_perm _ _).mem_iff, List.mem_filter]
  simp

theorem sorted_ascending (h : Separate snap) :
    IntervalSweep.Ascending (fun r : SnapshotRegion => r.base.toNat) endOf (sorted snap.regions) := by
  have hdisjoint : (sorted snap.regions).Pairwise fun r s => ∀ x, ¬ (Covers r x ∧ Covers s x) :=
    ((BinarySearch.sortBy_perm _ _).pairwise_iff fun hrs x hx => hrs x hx.symm).mpr
      (h.disjoint.filter _)
  have hsorted := BinarySearch.sortBy_sorted (fun r : SnapshotRegion => r.base.toNat)
    (snap.regions.filter fun r => !r.bytes.isEmpty)
  refine (hsorted.and hdisjoint).imp_of_mem fun {r s} hr hs hrs => ?_
  obtain ⟨hr, -⟩ := mem_sorted.mp hr
  obtain ⟨hs, hne⟩ := mem_sorted.mp hs
  have hlen : 0 < s.bytes.length := List.length_pos_iff.mpr hne
  dsimp only
  rw [endOf_eq (h.belowTop r hr)]
  by_contra hlt
  exact hrs.2 s.base.toNat ⟨⟨hrs.1, by omega⟩, le_rfl, by omega⟩

/-- The differing bytes of two regions. -/
def pairChanges (p : SnapshotRegion × SnapshotRegion) : List ByteDiff :=
  match overlap p.1.base.toNat p.1.bytes.length p.2.base.toNat p.2.bytes.length with
  | none => []
  | some (lo, hi) =>
    (List.range (hi - lo)).filterMap fun k =>
      let before := p.1.bytes.getD (lo - p.1.base.toNat + k) 0
      let after := p.2.bytes.getD (lo - p.2.base.toNat + k) 0
      if before == after then none else some ⟨lo + k, before, after⟩

theorem comparePair_eq (maxDiffs : ℕ) (st : DiffState) (a b : SnapshotRegion) :
    comparePair maxDiffs st a b = (pairChanges (a, b)).foldl (DiffState.push maxDiffs) st := by
  rw [comparePair, pairChanges]
  cases overlap a.base.toNat a.bytes.length b.base.toNat b.bytes.length with
  | none => rfl
  | some range =>
    dsimp only
    rw [List.foldl_filterMap]
    congr 1
    funext st k
    split <;> rfl

theorem diffLoop_eq (maxDiffs : ℕ) (st : DiffState) (as bs : List SnapshotRegion) :
    diffLoop maxDiffs st as bs = ((IntervalSweep.sweep endOf endOf as bs).flatMap
      pairChanges).foldl (DiffState.push maxDiffs) st := by
  fun_induction IntervalSweep.sweep endOf endOf as bs generalizing st with
  | case1 a as b bs hle ih =>
    rw [diffLoop, if_pos hle, ih, List.flatMap_cons, List.foldl_append, comparePair_eq]
  | case2 a as b bs hle ih =>
    rw [diffLoop, if_neg hle, ih, List.flatMap_cons, List.foldl_append, comparePair_eq]
  | case3 as bs hnone =>
    rw [diffLoop]
    · rfl
    · exact hnone

/-- The first `maxDiffs` are kept, and all are counted. -/
theorem foldl_push (maxDiffs : ℕ) (all done : List ByteDiff) :
    all.foldl (DiffState.push maxDiffs) ⟨done.length, done.take maxDiffs⟩ =
      ⟨(done ++ all).length, (done ++ all).take maxDiffs⟩ := by
  induction all generalizing done with
  | nil => rw [List.append_nil]; rfl
  | cons d all ih =>
    have hstep : DiffState.push maxDiffs ⟨done.length, done.take maxDiffs⟩ d =
        ⟨(done ++ [d]).length, (done ++ [d]).take maxDiffs⟩ := by
      rw [DiffState.push, List.length_append, List.length_singleton, List.length_take]
      congr 1
      split
      · rename_i hlt
        rw [List.take_of_length_le (by omega), List.take_of_length_le (by simp; omega)]
      · rename_i hge
        rw [List.take_append_of_le_length (by omega)]
    rw [List.foldl_cons, hstep, ih, List.append_assoc, List.singleton_append]

theorem mem_pairChanges {a b : SnapshotRegion} (ha : ¬ Covers a top) (hb : ¬ Covers b top)
    {d : ByteDiff} : d ∈ pairChanges (a, b) ↔
      (a.base.toNat ≤ d.address ∧ a.bytes[d.address - a.base.toNat]? = some d.before) ∧
        (b.base.toNat ≤ d.address ∧ b.bytes[d.address - b.base.toNat]? = some d.after) ∧
        d.before ≠ d.after := by
  have hendA : clampedEnd a.base.toNat a.bytes.length = a.base.toNat + a.bytes.length := endOf_eq ha
  have hendB : clampedEnd b.base.toNat b.bytes.length = b.base.toNat + b.bytes.length := endOf_eq hb
  have hget : ∀ (bytes : List UInt8) (i : ℕ) (v : UInt8), i < bytes.length →
      (bytes[i]? = some v ↔ bytes.getD i 0 = v) := by
    intro bytes i v hi
    rw [List.getD_eq_getElem _ _ hi, List.getElem?_eq_getElem hi, Option.some_inj]
  rw [pairChanges, overlap, hendA, hendB]
  dsimp only
  split
  · rename_i hnone
    split at hnone
    · cases hnone
    · rename_i hlo
      refine iff_of_false (List.not_mem_nil) fun ⟨⟨hxa, hba⟩, ⟨hxb, hbb⟩, _⟩ => ?_
      have hla := (List.getElem?_eq_some_iff.mp hba).1
      have hlb := (List.getElem?_eq_some_iff.mp hbb).1
      omega
  · rename_i lo hi hsome
    split at hsome
    · rename_i hlt
      simp only [Option.some.injEq, Prod.mk.injEq] at hsome
      obtain ⟨hlo, hhi⟩ := hsome
      rw [List.mem_filterMap]
      constructor
      · rintro ⟨k, hk, hd⟩
        rw [List.mem_range] at hk
        split at hd
        · cases hd
        · rename_i hne
          cases hd
          dsimp only
          rw [hget _ _ _ (by omega), hget _ _ _ (by omega)]
          refine ⟨⟨by omega, ?_⟩, ⟨by omega, ?_⟩, by simpa using hne⟩
          · congr 1
            omega
          · congr 1
            omega
      · rintro ⟨⟨hxa, hba⟩, ⟨hxb, hbb⟩, hne⟩
        have hla := (List.getElem?_eq_some_iff.mp hba).1
        have hlb := (List.getElem?_eq_some_iff.mp hbb).1
        rw [hget _ _ _ hla] at hba
        rw [hget _ _ _ hlb] at hbb
        refine ⟨d.address - lo, List.mem_range.mpr (by omega), ?_⟩
        rw [show lo - a.base.toNat + (d.address - lo) = d.address - a.base.toNat by omega,
          show lo - b.base.toNat + (d.address - lo) = d.address - b.base.toNat by omega, hba, hbb,
          if_neg (by simpa using hne), show lo + (d.address - lo) = d.address by omega]
    · cases hsome

theorem pairChanges_ascending (p : SnapshotRegion × SnapshotRegion) :
    (pairChanges p).Pairwise fun c d => c.address < d.address := by
  rw [pairChanges]
  split
  · exact List.Pairwise.nil
  · refine List.Pairwise.filterMap _ (fun j k hjk c hc d hd => ?_) List.pairwise_lt_range
    dsimp only at hc hd
    split at hc
    · cases hc
    · split at hd
      · cases hd
      · cases hc
        cases hd
        exact Nat.add_lt_add_left hjk _

/-- The differing bytes of two snapshots, in ascending order. -/
def changes (snap later : Snapshot) : List ByteDiff :=
  (IntervalSweep.sweep endOf endOf (sorted snap.regions) (sorted later.regions)).flatMap pairChanges

theorem holds_iff {x : ℕ} {b : UInt8} : Holds snap x b ↔
    ∃ r ∈ sorted snap.regions, r.base.toNat ≤ x ∧ r.bytes[x - r.base.toNat]? = some b := by
  refine exists_congr fun r => ?_
  rw [mem_sorted, and_assoc]
  refine and_congr_right fun _ => (and_iff_right_of_imp ?_).symm
  rintro ⟨-, hb⟩ hnil
  rw [hnil] at hb
  cases hb

theorem mem_changes (ha : Separate snap) (hb : Separate later) {d : ByteDiff} :
    d ∈ changes snap later ↔
      Holds snap d.address d.before ∧ Holds later d.address d.after ∧ d.before ≠ d.after := by
  have htopA : ∀ r ∈ sorted snap.regions, ¬ Covers r top := fun r hr =>
    ha.belowTop r (mem_sorted.mp hr).1
  have htopB : ∀ r ∈ sorted later.regions, ¬ Covers r top := fun r hr =>
    hb.belowTop r (mem_sorted.mp hr).1
  rw [changes, List.mem_flatMap, holds_iff, holds_iff]
  constructor
  · rintro ⟨⟨a, b⟩, hp, hd⟩
    obtain ⟨hmemA, hmemB⟩ := IntervalSweep.sweep_mem hp
    obtain ⟨hbefore, hafter, hne⟩ := (mem_pairChanges (htopA a hmemA) (htopB b hmemB)).mp hd
    exact ⟨⟨a, hmemA, hbefore⟩, ⟨b, hmemB, hafter⟩, hne⟩
  · rintro ⟨⟨a, hmemA, hbefore⟩, ⟨b, hmemB, hafter⟩, hne⟩
    have hlenA := (List.getElem?_eq_some_iff.mp hbefore.2).1
    have hlenB := (List.getElem?_eq_some_iff.mp hafter.2).1
    refine ⟨(a, b), IntervalSweep.mem_sweep (sorted_ascending ha) (sorted_ascending hb) hmemA hmemB
      (x := d.address) ⟨⟨hbefore.1, ?_⟩, hafter.1, ?_⟩,
      (mem_pairChanges (htopA a hmemA) (htopB b hmemB)).mpr ⟨hbefore, hafter, hne⟩⟩
    · rw [endOf_eq (htopA a hmemA)]
      omega
    · rw [endOf_eq (htopB b hmemB)]
      omega

theorem changes_ascending (ha : Separate snap) (hb : Separate later) :
    (changes snap later).Pairwise fun c d => c.address < d.address := by
  refine IntervalSweep.flatMap_sweep_ascending (sorted_ascending ha) (sorted_ascending hb)
    pairChanges ByteDiff.address (fun p _ => pairChanges_ascending p) fun ⟨a, b⟩ hp d hd => ?_
  obtain ⟨hmemA, hmemB⟩ := IntervalSweep.sweep_mem hp
  have htopA := ha.belowTop a (mem_sorted.mp hmemA).1
  have htopB := hb.belowTop b (mem_sorted.mp hmemB).1
  obtain ⟨hbefore, hafter, -⟩ := (mem_pairChanges htopA htopB).mp hd
  have hlenA := (List.getElem?_eq_some_iff.mp hbefore.2).1
  have hlenB := (List.getElem?_eq_some_iff.mp hafter.2).1
  refine ⟨⟨hbefore.1, ?_⟩, hafter.1, ?_⟩
  · dsimp only
    rw [endOf_eq htopA]
    omega
  · dsimp only
    rw [endOf_eq htopB]
    omega

/-- Every differing byte is counted, and the lowest `maxDiffs` are returned in order. -/
theorem diff_eq_changes (snap later : Snapshot) (ha : Separate snap) (hb : Separate later)
    (maxDiffs : ℕ) : ∃ all : List ByteDiff,
      (all.Pairwise fun c d => c.address < d.address) ∧
      (∀ d, d ∈ all ↔
        Holds snap d.address d.before ∧ Holds later d.address d.after ∧ d.before ≠ d.after) ∧
      diff snap later maxDiffs = (all.take maxDiffs, all.length) := by
  refine ⟨changes snap later, changes_ascending ha hb, fun d => mem_changes ha hb, ?_⟩
  have hfold := foldl_push maxDiffs (changes snap later) []
  rw [List.take_nil, List.length_nil, List.nil_append] at hfold
  have hkept : BinarySearch.sortBy ByteDiff.address ((changes snap later).take maxDiffs) =
      (changes snap later).take maxDiffs :=
    List.mergeSort_of_pairwise (((changes_ascending ha hb).sublist (List.take_sublist _ _)).imp
      fun h => decide_eq_true h.le)
  rw [diff, diffLoop_eq]
  change (BinarySearch.sortBy ByteDiff.address
    ((changes snap later).foldl (DiffState.push maxDiffs) ⟨0, []⟩).out,
    ((changes snap later).foldl (DiffState.push maxDiffs) ⟨0, []⟩).changed) = _
  rw [hfold, hkept]

/-- A region that has grown by a byte and lost one. -/
theorem grown_region_compared :
    ∃ all : List ByteDiff, (all.Pairwise fun c d => c.address < d.address) ∧
      (∀ d, d ∈ all ↔ Holds ⟨[⟨0x1000, 2, 3, [1, 2]⟩], false⟩ d.address d.before ∧
        Holds ⟨[⟨0x1001, 2, 3, [3, 4]⟩], false⟩ d.address d.after ∧ d.before ≠ d.after) ∧
      diff ⟨[⟨0x1000, 2, 3, [1, 2]⟩], false⟩ ⟨[⟨0x1001, 2, 3, [3, 4]⟩], false⟩ 8 =
        (all.take 8, all.length) :=
  diff_eq_changes _ _
    ⟨List.pairwise_singleton _ _, fun r hr => by
      rw [List.mem_singleton.mp hr]
      exact fun h => absurd h.2 (by decide)⟩
    ⟨List.pairwise_singleton _ _, fun r hr => by
      rw [List.mem_singleton.mp hr]
      exact fun h => absurd h.2 (by decide)⟩ 8

end Diff

end Snapshot

end CheatEngine
