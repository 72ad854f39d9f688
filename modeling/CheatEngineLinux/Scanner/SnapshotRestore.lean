import CheatEngineLinux.Library.ByteOverlay
import CheatEngineLinux.Scanner.SnapshotFile

/-!
# Restoring a snapshot

`Snapshot::restore` (`scanner/snapshot.cpp`): the captured bytes are written back where the process
has writable data now.

* `Target`: a process whose writes may fail or be cut short.
* `restore`, `restorations`: the loop, and the ranges it writes.
* **PROVED `restore_frame`**: a byte that has changed was captured, lies in writable data, and has
  a captured value of its address.
* **PROVED `restore_exact`**: with every write done, all captured bytes in writable data have their
  value again unless one of them is the highest address.
-/

namespace CheatEngine.Snapshot

open ByteOverlay

/-! ### The target -/

/-- `MemProt::Exec` -/
def LiveRegion.executable (r : LiveRegion) : Bool := r.protection &&& 4 != 0

def LiveRegion.Contains (r : LiveRegion) (x : ℕ) : Prop :=
  r.base.toNat ≤ x ∧ x < r.base.toNat + r.size.toNat

/-- The process handle: its regions, its memory, and what a write leaves and returns (none for an
error).  A write, also one that fails, leaves a byte as it is or writes it; it has written as many
as it returns. -/
structure Target (μ : Type) where
  queryRegions : μ → List LiveRegion
  memory : μ → ℕ → UInt8
  write : μ → UInt64 → List UInt8 → μ × Option ℕ
  write_frame : ∀ s address bytes x,
    memory (write s address bytes).1 x = memory s x ∨
      byteAt address.toNat bytes x = some (memory (write s address bytes).1 x)
  write_done : ∀ s address bytes n, (write s address bytes).2 = some n →
    ∀ x b, byteAt address.toNat (bytes.take n) x = some b →
      memory (write s address bytes).1 x = b

/-! ### Restoring -/

/-- Writable data: a write to code could reach the code-patching path. -/
def LiveRegion.isTarget (r : LiveRegion) : Bool := r.writable && !r.executable && r.size != 0

def restorePart (saved : SnapshotRegion) (t : LiveRegion) : Option (ℕ × List UInt8) :=
  match overlap saved.base.toNat saved.bytes.length t.base.toNat t.size.toNat with
  | none => none
  | some (lo, hi) => some (lo, (saved.bytes.drop (lo - saved.base.toNat)).take (hi - lo))

section Restore

variable {μ : Type} (proc : Target μ)

/-- One write, and the total with the bytes it has written. -/
def writeRange (st : μ × UInt64) (r : ℕ × List UInt8) : μ × UInt64 :=
  match proc.write st.1 (UInt64.ofNat r.1) r.2 with
  | (s, none) => (s, st.2)
  | (s, some n) => (s, st.2 + UInt64.ofNat n)

/-- Writes the captured bytes back into writable data; returns how many were written. -/
def restore (snap : Snapshot) (s : μ) : μ × UInt64 :=
  let targets := (proc.queryRegions s).filter LiveRegion.isTarget
  snap.regions.foldl (fun st saved =>
    targets.foldl (fun st t =>
      match restorePart saved t with
      | none => st
      | some r => writeRange proc st r) st) (s, 0)

/-- The ranges that a restore writes, in order. -/
def restorations (snap : Snapshot) (live : List LiveRegion) : List (ℕ × List UInt8) :=
  snap.regions.flatMap fun saved => (live.filter LiveRegion.isTarget).filterMap (restorePart saved)

/-- Every write of a run writes all its bytes. -/
def AllWritten : μ → List (ℕ × List UInt8) → Prop
  | _, [] => True
  | s, r :: rest =>
    (proc.write s (UInt64.ofNat r.1) r.2).2 = some r.2.length ∧
      AllWritten (proc.write s (UInt64.ofNat r.1) r.2).1 rest

/-- A captured byte whose address is in a writable region that holds no code. -/
def Restorable (snap : Snapshot) (live : List LiveRegion) (x : ℕ) : Prop :=
  x ≤ top ∧ (∃ b, Holds snap x b) ∧
    ∃ t ∈ live, t.writable = true ∧ t.executable = false ∧ t.Contains x

variable {proc} {snap : Snapshot} {live : List LiveRegion} {s : μ}

theorem restore_eq : restore proc snap s =
    (restorations snap (proc.queryRegions s)).foldl (writeRange proc) (s, 0) := by
  simp only [restore, restorations, List.foldl_flatMap, List.foldl_filterMap]
  congr 1
  funext st saved
  congr 1
  funext st t
  cases restorePart saved t <;> rfl

/-! ### Which bytes are written -/

theorem holds_iff_byteAt {x : ℕ} {b : UInt8} :
    Holds snap x b ↔ ∃ r ∈ snap.regions, byteAt r.base.toNat r.bytes x = some b := by
  simp only [Holds, byteAt_eq_some]

theorem overlap_eq_some {a la b lb lo hi : ℕ} (h : overlap a la b lb = some (lo, hi)) :
    lo = max a b ∧ hi = min (clampedEnd a la) (clampedEnd b lb) ∧ lo < hi := by
  simp only [overlap] at h
  split at h
  · rename_i hlt
    cases h
    exact ⟨rfl, rfl, hlt⟩
  · cases h

theorem overlap_of_lt {a la b lb : ℕ}
    (h : max a b < min (clampedEnd a la) (clampedEnd b lb)) :
    overlap a la b lb = some (max a b, min (clampedEnd a la) (clampedEnd b lb)) := by
  simp only [overlap, if_pos h]

/-- A range has the captured bytes of its addresses, the highest address left out. -/
theorem byteAt_restorePart {saved : SnapshotRegion} {t : LiveRegion} {r : ℕ × List UInt8}
    (h : restorePart saved t = some r) (x : ℕ) :
    byteAt r.1 r.2 x =
      if t.base.toNat ≤ x ∧ x < t.base.toNat + t.size.toNat ∧ x < top then
        byteAt saved.base.toNat saved.bytes x else none := by
  unfold restorePart at h
  split at h
  · cases h
  · rename_i lo hi hoverlap
    obtain ⟨hlo, hhi, hlt⟩ := overlap_eq_some hoverlap
    cases h
    have hbase := saved.base.toNat_lt
    have htbase := t.base.toNat_lt
    have htop : top = 2 ^ 64 - 1 := rfl
    simp only [clampedEnd] at hhi
    have hsum : saved.base.toNat + (lo - saved.base.toNat) = lo := by omega
    have hdrop := byteAt_drop saved.base.toNat (lo - saved.base.toNat) saved.bytes x
    rw [hsum] at hdrop
    rw [byteAt_take, hdrop]
    by_cases hx : saved.base.toNat ≤ x ∧ x < saved.base.toNat + saved.bytes.length
    · by_cases hin : lo ≤ x ∧ x < hi
      · rw [if_pos (by omega), if_pos (by omega), if_pos (by omega)]
      · have hout : ¬(t.base.toNat ≤ x ∧ x < t.base.toNat + t.size.toNat ∧ x < top) := by omega
        rw [if_neg hout]
        split
        · rw [if_neg (by omega)]
        · rfl
    · have hnone : byteAt saved.base.toNat saved.bytes x = none :=
        byteAt_eq_none.mpr (by omega)
      rw [hnone, ite_self, ite_self, ite_self]

theorem restorePart_isSome {saved : SnapshotRegion} {t : LiveRegion} {x : ℕ}
    (hx : Covers saved x) (ht : t.Contains x) (htop : x < top) :
    ∃ r, restorePart saved t = some r := by
  obtain ⟨hlo, hhi⟩ := hx
  obtain ⟨htlo, hthi⟩ := ht
  have hlt : max saved.base.toNat t.base.toNat <
      min (clampedEnd saved.base.toNat saved.bytes.length)
        (clampedEnd t.base.toNat t.size.toNat) := by
    simp only [clampedEnd]
    omega
  rw [restorePart, overlap_of_lt hlt]
  exact ⟨_, rfl⟩

theorem isTarget_of_contains {t : LiveRegion} {x : ℕ} (hx : t.Contains x) :
    t.isTarget = true ↔ t.writable = true ∧ t.executable = false := by
  have hsize : t.size ≠ 0 := by
    rintro h
    rw [LiveRegion.Contains, h] at hx
    exact absurd hx.2 (by simpa using hx.1)
  simp [LiveRegion.isTarget, hsize]

/-- A restore writes, below the highest address, the captured bytes in writable data. -/
theorem mem_restorations {x : ℕ} {b : UInt8} :
    (∃ r ∈ restorations snap live, byteAt r.1 r.2 x = some b) ↔
      Holds snap x b ∧ Restorable snap live x ∧ x < top := by
  rw [holds_iff_byteAt]
  constructor
  · rintro ⟨r, hr, hb⟩
    obtain ⟨saved, hsaved, hr⟩ := List.mem_flatMap.mp hr
    obtain ⟨t, ht, hr⟩ := List.mem_filterMap.mp hr
    obtain ⟨ht, htarget⟩ := List.mem_filter.mp ht
    rw [byteAt_restorePart hr] at hb
    split at hb
    · rename_i hin
      have hcontains : t.Contains x := ⟨hin.1, hin.2.1⟩
      have hheld : ∃ saved ∈ snap.regions, byteAt saved.base.toNat saved.bytes x = some b :=
        ⟨saved, hsaved, hb⟩
      exact ⟨hheld, ⟨hin.2.2.le, ⟨b, holds_iff_byteAt.mpr hheld⟩, t, ht,
        ((isTarget_of_contains hcontains).mp htarget).1,
        ((isTarget_of_contains hcontains).mp htarget).2, hcontains⟩, hin.2.2⟩
    · cases hb
  · rintro ⟨⟨saved, hsaved, hb⟩, ⟨-, -, t, ht, hwritable, hexecutable, hcontains⟩, htop⟩
    have hcovers : Covers saved x := byteAt_isSome.mp (Option.isSome_of_mem hb)
    obtain ⟨r, hr⟩ := restorePart_isSome hcovers hcontains htop
    refine ⟨r, List.mem_flatMap.mpr ⟨saved, hsaved, List.mem_filterMap.mpr ⟨t,
      List.mem_filter.mpr ⟨ht, (isTarget_of_contains hcontains).mpr ⟨hwritable, hexecutable⟩⟩,
      hr⟩⟩, ?_⟩
    rw [byteAt_restorePart hr, if_pos ⟨hcontains.1, hcontains.2, htop⟩, hb]

/-! ### The writes of a run -/

theorem writeRange_fst (st : μ × UInt64) (r : ℕ × List UInt8) :
    (writeRange proc st r).1 = (proc.write st.1 (UInt64.ofNat r.1) r.2).1 := by
  unfold writeRange
  split <;> rename_i h <;> rw [h]

theorem writeAll_frame (ranges : List (ℕ × List UInt8)) (haddress : ∀ r ∈ ranges, r.1 < 2 ^ 64)
    (st : μ × UInt64) (x : ℕ) :
    proc.memory (ranges.foldl (writeRange proc) st).1 x = proc.memory st.1 x ∨
      ∃ r ∈ ranges, byteAt r.1 r.2 x =
        some (proc.memory (ranges.foldl (writeRange proc) st).1 x) := by
  induction ranges generalizing st with
  | nil => exact Or.inl rfl
  | cons r ranges ih =>
    obtain ⟨hr, hrest⟩ := List.forall_mem_cons.mp haddress
    rw [List.foldl_cons]
    rcases ih hrest (writeRange proc st r) with hsame | ⟨r', hr', hb⟩
    · have hone := proc.write_frame st.1 (UInt64.ofNat r.1) r.2 x
      rw [UInt64.toNat_ofNat_of_lt' hr, ← writeRange_fst, ← hsame] at hone
      rcases hone with hone | hone
      · exact Or.inl hone
      · exact Or.inr ⟨r, List.mem_cons_self, hone⟩
    · exact Or.inr ⟨r', List.mem_cons_of_mem _ hr', hb⟩

theorem memory_write {address : ℕ} (haddress : address < 2 ^ 64) {bytes : List UInt8}
    (hdone : (proc.write s (UInt64.ofNat address) bytes).2 = some bytes.length) :
    proc.memory (proc.write s (UInt64.ofNat address) bytes).1 =
      lay (proc.memory s) address bytes := by
  have hwritten := proc.write_done s (UInt64.ofNat address) bytes bytes.length hdone
  have hframe := proc.write_frame s (UInt64.ofNat address) bytes
  rw [List.take_length, UInt64.toNat_ofNat_of_lt' haddress] at hwritten
  rw [UInt64.toNat_ofNat_of_lt' haddress] at hframe
  funext x
  cases hb : byteAt address bytes x with
  | none =>
    rw [lay_of_none hb]
    exact (hframe x).resolve_right (by rw [hb]; nofun)
  | some b =>
    rw [lay_of_some hb]
    exact hwritten x b hb

theorem writeAll_written (ranges : List (ℕ × List UInt8)) (haddress : ∀ r ∈ ranges, r.1 < 2 ^ 64)
    (hall : AllWritten proc s ranges) (total : UInt64) :
    proc.memory (ranges.foldl (writeRange proc) (s, total)).1 = layAll (proc.memory s) ranges ∧
      (ranges.foldl (writeRange proc) (s, total)).2 =
        total + UInt64.ofNat (ranges.map fun r => r.2.length).sum := by
  induction ranges generalizing s total with
  | nil => exact ⟨rfl, by simp⟩
  | cons r ranges ih =>
    obtain ⟨hr, hrest⟩ := List.forall_mem_cons.mp haddress
    obtain ⟨hdone, hall⟩ := hall
    have hstep : writeRange proc (s, total) r = ((proc.write s (UInt64.ofNat r.1) r.2).1,
        total + UInt64.ofNat r.2.length) := by
      unfold writeRange
      split
      · rename_i h
        rw [h] at hdone
        cases hdone
      · rename_i h
        rw [h] at hdone
        cases hdone
        rw [h]
    obtain ⟨hmemory, htotal⟩ := ih hrest hall (total + UInt64.ofNat r.2.length)
    rw [List.foldl_cons, hstep, hmemory, htotal, memory_write hr hdone]
    refine ⟨rfl, ?_⟩
    rw [List.map_cons, List.sum_cons, UInt64.ofNat_add, UInt64.add_assoc]

theorem restorations_lt {r : ℕ × List UInt8} (hr : r ∈ restorations snap live) :
    r.1 < 2 ^ 64 := by
  obtain ⟨saved, -, hr⟩ := List.mem_flatMap.mp hr
  obtain ⟨t, -, hr⟩ := List.mem_filterMap.mp hr
  have hbase := saved.base.toNat_lt
  have htbase := t.base.toNat_lt
  unfold restorePart at hr
  split at hr
  · cases hr
  · rename_i lo hi hoverlap
    obtain ⟨hlo, -, -⟩ := overlap_eq_some hoverlap
    cases hr
    dsimp only
    omega

/-- **A restore writes only what it may**: a byte that has changed was captured, is in writable
data, and has a captured value of its address. -/
theorem restore_frame {x : ℕ}
    (hchanged : proc.memory (restore proc snap s).1 x ≠ proc.memory s x) :
    Restorable snap (proc.queryRegions s) x ∧
      Holds snap x (proc.memory (restore proc snap s).1 x) := by
  have hframe := @writeAll_frame _ proc (restorations snap (proc.queryRegions s))
    (fun _ hr => restorations_lt hr) (s, 0) x
  rw [← restore_eq] at hframe
  obtain ⟨hholds, hrestorable, -⟩ := mem_restorations.mp (hframe.resolve_left hchanged)
  exact ⟨hrestorable, hholds⟩

/-! ### How many bytes are written -/

def CapturedOnce (snap : Snapshot) : Prop :=
  snap.regions.Pairwise fun r s => ∀ x, ¬ (Covers r x ∧ Covers s x)

def RegionsApart (live : List LiveRegion) : Prop :=
  live.Pairwise fun s t => ∀ x, ¬ (s.Contains x ∧ t.Contains x)

/-- The addresses that a run writes, in order. -/
def addresses (ranges : List (ℕ × List UInt8)) : List ℕ :=
  ranges.flatMap fun r => List.range' r.1 r.2.length

theorem mem_addresses_iff {x : ℕ} :
    x ∈ addresses (restorations snap live) ↔ Restorable snap live x ∧ x < top := by
  have hmem : x ∈ addresses (restorations snap live) ↔
      ∃ b, ∃ r ∈ restorations snap live, byteAt r.1 r.2 x = some b := by
    rw [addresses, List.mem_flatMap, exists_comm]
    refine exists_congr fun r => ?_
    rw [exists_and_left, ← Option.isSome_iff_exists, byteAt_isSome, List.mem_range'_1]
  rw [hmem]
  simp only [mem_restorations, exists_and_right]
  exact and_iff_right_of_imp fun h => h.1.2.1

theorem addresses_nodup (honce : CapturedOnce snap) (hapart : RegionsApart live) :
    (addresses (restorations snap live)).Nodup := by
  have hpart : ∀ {saved : SnapshotRegion} {t : LiveRegion} {r : ℕ × List UInt8} {x : ℕ},
      restorePart saved t = some r → x ∈ List.range' r.1 r.2.length →
        Covers saved x ∧ t.Contains x := by
    intro saved t r x hr hx
    rw [List.mem_range'_1, ← byteAt_isSome, byteAt_restorePart hr] at hx
    split at hx
    · rename_i hin
      exact ⟨byteAt_isSome.mp hx, hin.1, hin.2.1⟩
    · cases hx
  rw [addresses, List.nodup_flatMap]
  refine ⟨fun r _ => List.nodup_range', ?_⟩
  rw [restorations, List.pairwise_flatMap]
  constructor
  · intro saved _
    refine (hapart.filter _).filterMap _ fun t t' htt r hr r' hr' x hx hx' => ?_
    exact htt x ⟨(hpart hr hx).2, (hpart hr' hx').2⟩
  · refine honce.imp fun {saved saved'} hss r hr r' hr' x hx hx' => ?_
    obtain ⟨t, -, hr⟩ := List.mem_filterMap.mp hr
    obtain ⟨t', -, hr'⟩ := List.mem_filterMap.mp hr'
    exact hss x ⟨(hpart hr hx).1, (hpart hr' hx').1⟩

theorem Holds.unique (honce : CapturedOnce snap) {x : ℕ} {b c : UInt8} (hb : Holds snap x b)
    (hc : Holds snap x c) : b = c := by
  obtain ⟨r, hr, hlo, hb⟩ := hb
  obtain ⟨r', hr', hlo', hc⟩ := hc
  have hcovers : Covers r x := by
    have := (List.getElem?_eq_some_iff.mp hb).1
    exact ⟨hlo, by omega⟩
  have hcovers' : Covers r' x := by
    have := (List.getElem?_eq_some_iff.mp hc).1
    exact ⟨hlo', by omega⟩
  obtain rfl : r = r' := by
    have hsymm : Std.Symm fun r s : SnapshotRegion => ∀ x, ¬ (Covers r x ∧ Covers s x) :=
      ⟨fun _ _ hrs x hx => hrs x hx.symm⟩
    by_contra hne
    exact honce.forall hr hr' hne x ⟨hcovers, hcovers'⟩
  exact Option.some.inj (hb.symm.trans hc)

/-- Every captured byte in writable data has its captured value, and the total is their number. -/
def Restored (snap : Snapshot) (live : List LiveRegion) (memory : ℕ → UInt8) (total : UInt64) :
    Prop :=
  (∀ x b, Restorable snap live x → Holds snap x b → memory x = b) ∧
    total.toNat = Set.ncard {x | Restorable snap live x}

theorem restore_total (honce : CapturedOnce snap) (hapart : RegionsApart (proc.queryRegions s))
    (hall : AllWritten proc s (restorations snap (proc.queryRegions s))) :
    (restore proc snap s).2.toNat =
      Set.ncard {x | Restorable snap (proc.queryRegions s) x ∧ x < top} := by
  have hlength : ((restorations snap (proc.queryRegions s)).map fun r => r.2.length).sum =
      (addresses (restorations snap (proc.queryRegions s))).length := by
    simp [addresses, List.length_flatMap]
  have hnodup := addresses_nodup honce hapart
  have hset : {x | Restorable snap (proc.queryRegions s) x ∧ x < top} =
      ((addresses (restorations snap (proc.queryRegions s))).toFinset : Set ℕ) := by
    ext x
    rw [List.coe_toFinset, Set.mem_ofPred_eq, Set.mem_ofPred_eq, mem_addresses_iff]
  have hbelow : (addresses (restorations snap (proc.queryRegions s))).toFinset ⊆
      Finset.range top := by
    intro x hx
    exact Finset.mem_range.mpr (mem_addresses_iff.mp (List.mem_toFinset.mp hx)).2
  have hcard := Finset.card_le_card hbelow
  rw [Finset.card_range, List.toFinset_card_of_nodup hnodup] at hcard
  have htop : top = 2 ^ 64 - 1 := rfl
  rw [restore_eq, (writeAll_written _ (fun _ hr => restorations_lt hr) hall 0).2, hlength, hset,
    Set.ncard_coe_finset, List.toFinset_card_of_nodup hnodup, UInt64.zero_add,
    UInt64.toNat_ofNat_of_lt' (show _ < 2 ^ 64 by omega)]

theorem restore_memory (honce : CapturedOnce snap)
    (hall : AllWritten proc s (restorations snap (proc.queryRegions s))) {x : ℕ} {b : UInt8}
    (hx : Restorable snap (proc.queryRegions s) x) (htop : x < top) (hb : Holds snap x b) :
    proc.memory (restore proc snap s).1 x = b := by
  rw [restore_eq, (writeAll_written _ (fun _ hr => restorations_lt hr) hall 0).1, layAll_apply]
  obtain ⟨r, hr, hrb⟩ := mem_restorations.mpr ⟨hb, hx, htop⟩
  have hsome : (firstAt (restorations snap (proc.queryRegions s)).reverse x).isSome :=
    firstAt_isSome.mpr ⟨r, List.mem_reverse.mpr hr, by rw [hrb]; rfl⟩
  obtain ⟨c, hc⟩ := Option.isSome_iff_exists.mp hsome
  obtain ⟨r', hr', hrc⟩ := List.exists_of_findSome?_eq_some hc
  obtain ⟨hholds, -, -⟩ := mem_restorations.mp ⟨r', List.mem_reverse.mp hr', hrc⟩
  rw [hc, Option.getD_some]
  exact hholds.unique honce hb

/-- **What a restore does**: only captured bytes in writable data change, each to a captured value
of its address.  Where no captured regions overlap and every write is done, all of them have their
value again and are counted, if and only if none is the highest address. -/
theorem restore_exact (proc : Target μ) (snap : Snapshot) (s : μ)
    (hapart : RegionsApart (proc.queryRegions s)) :
    (∀ x, proc.memory (restore proc snap s).1 x ≠ proc.memory s x →
      Restorable snap (proc.queryRegions s) x ∧
        Holds snap x (proc.memory (restore proc snap s).1 x)) ∧
    (CapturedOnce snap → AllWritten proc s (restorations snap (proc.queryRegions s)) →
      (Restored snap (proc.queryRegions s) (proc.memory (restore proc snap s).1)
          (restore proc snap s).2 ↔ ¬ Restorable snap (proc.queryRegions s) top)) := by
  refine ⟨fun x hx => restore_frame hx, fun honce hall => ?_⟩
  have htotal := restore_total honce hapart hall
  by_cases htop : Restorable snap (proc.queryRegions s) top
  · -- the highest address is in writable data, and is not counted
    have hset : {x | Restorable snap (proc.queryRegions s) x} =
        insert top {x | Restorable snap (proc.queryRegions s) x ∧ x < top} := by
      ext x
      rw [Set.mem_insert_iff, Set.mem_ofPred_eq, Set.mem_ofPred_eq]
      constructor
      · intro hx
        rcases hx.1.eq_or_lt with rfl | hlt
        · exact Or.inl rfl
        · exact Or.inr ⟨hx, hlt⟩
      · rintro (rfl | hx)
        · exact htop
        · exact hx.1
    have hfinite : {x | Restorable snap (proc.queryRegions s) x ∧ x < top}.Finite :=
      (Set.finite_lt_nat top).subset fun x hx => hx.2
    have hnumber : Set.ncard {x | Restorable snap (proc.queryRegions s) x} =
        (restore proc snap s).2.toNat + 1 := by
      rw [hset, Set.ncard_insert_of_notMem (fun h => lt_irrefl _ h.2) hfinite, htotal]
    refine iff_of_false (fun hrestored => ?_) (not_not_intro htop)
    have := hrestored.2
    omega
  · have hbelow : ∀ x, Restorable snap (proc.queryRegions s) x → x < top := fun x hx =>
      lt_of_le_of_ne hx.1 fun h => htop (h ▸ hx)
    have hset : {x | Restorable snap (proc.queryRegions s) x ∧ x < top} =
        {x | Restorable snap (proc.queryRegions s) x} :=
      Set.ext fun x => and_iff_left_of_imp (hbelow x)
    refine iff_of_true ⟨fun x b hx hb => restore_memory honce hall hx (hbelow x hx) hb, ?_⟩ htop
    rw [htotal, hset]

end Restore

/-- A process of one region whose writes are all done. -/
def obedient (region : LiveRegion) : Target (ℕ → UInt8) where
  queryRegions _ := [region]
  memory m := m
  write m address bytes := (lay m address.toNat bytes, some bytes.length)
  write_frame m address bytes x := by
    cases hb : byteAt address.toNat bytes x with
    | none => exact Or.inl (lay_of_none hb)
    | some b => exact Or.inr (congrArg some (lay_of_some hb).symm)
  write_done m address bytes n hn x b hb := by
    cases hn
    rw [List.take_length] at hb
    exact lay_of_some hb

theorem restore_exact_page : Restored ⟨[⟨0x1000, 2, 3, [7, 8]⟩], false⟩ [⟨0x1001, 8, 3⟩]
    (restore (obedient ⟨0x1001, 8, 3⟩) ⟨[⟨0x1000, 2, 3, [7, 8]⟩], false⟩ fun _ => 0).1
    (restore (obedient ⟨0x1001, 8, 3⟩) ⟨[⟨0x1000, 2, 3, [7, 8]⟩], false⟩ fun _ => 0).2 := by
  have hexact := restore_exact (obedient ⟨0x1001, 8, 3⟩) ⟨[⟨0x1000, 2, 3, [7, 8]⟩], false⟩
    (fun _ => 0) (List.pairwise_singleton _ _)
  refine (hexact.2 (List.pairwise_singleton _ _) ⟨rfl, trivial⟩).mpr ?_
  rintro ⟨-, -, t, ht, -, -, hcontains⟩
  cases List.mem_singleton.mp ht
  exact absurd hcontains.2 (by decide)

/-- A file of one byte at the highest address is loaded, and the byte is not written back. -/
theorem highest_byte_not_restored :
    (∃ file, load {} (some file) = (⟨[⟨0xffffffffffffffff, 1, 3, [7]⟩], false⟩, .ok ())) ∧
      RegionsApart [⟨0xfffffffffffff000, 0x1000, 3⟩] ∧
      ¬ (CapturedOnce ⟨[⟨0xffffffffffffffff, 1, 3, [7]⟩], false⟩ →
        AllWritten (obedient ⟨0xfffffffffffff000, 0x1000, 3⟩) (fun _ => 0)
          (restorations ⟨[⟨0xffffffffffffffff, 1, 3, [7]⟩], false⟩
            [⟨0xfffffffffffff000, 0x1000, 3⟩]) →
        Restored ⟨[⟨0xffffffffffffffff, 1, 3, [7]⟩], false⟩ [⟨0xfffffffffffff000, 0x1000, 3⟩]
          (restore (obedient ⟨0xfffffffffffff000, 0x1000, 3⟩)
            ⟨[⟨0xffffffffffffffff, 1, 3, [7]⟩], false⟩ fun _ => 0).1
          (restore (obedient ⟨0xfffffffffffff000, 0x1000, 3⟩)
            ⟨[⟨0xffffffffffffffff, 1, 3, [7]⟩], false⟩ fun _ => 0).2) := by
  refine ⟨?_, List.pairwise_singleton _ _, ?_⟩
  · exact ⟨snapshotMagic ++ (RecordFile.leBytes 4 1 ++ regionBytes
      ⟨0xffffffffffffffff, 1, 3, [7]⟩), by decide⟩
  · intro h
    have hvalue := (h (List.pairwise_singleton _ _) trivial).1 top 7
      ⟨le_rfl, ⟨7, _, List.mem_singleton_self _, le_rfl, rfl⟩, _, List.mem_singleton_self _,
        by decide, by decide, by unfold LiveRegion.Contains top; decide⟩
      ⟨_, List.mem_singleton_self _, le_rfl, rfl⟩
    exact absurd hvalue (by decide)

end CheatEngine.Snapshot
