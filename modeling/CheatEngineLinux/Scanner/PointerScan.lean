import CheatEngineLinux.Scanner.StaticBases

/-!
# Scanning back from a target through a pointer map

`PointerScanner::scanWithMap` (`scanner/pointer_scanner.cpp`) is an iterative-deepening
search: pass `n` walks the map depth first with an explicit stack and records only the
chains of `n` links.  This file is that function, loop by loop:

* `window` — the entries whose pointer lands within `maxOffset` of an address;
* `endpoint` / `record` — the base a chain ends at, the shard filter and the result cap;
* `walk` — the `while (!stack.empty())` loop of one pass, with its visit counter, its polls
  of the cancel flag and its two early exits;
* `passes` / `scanWithMap` — the passes, the early stop and the result.

The cancel flag is set by another thread at any time, so its value at the `k`-th poll is a
parameter.  `makePointerScanShards` is the split into workers.
-/

namespace CheatEngine

structure PointerScanConfig where
  targetAddress : UInt64 := 0
  maxDepth : ℤ := 4
  maxOffset : Int32 := 2048
  negativeOffsets : Bool := false
  staticOnly : Bool := true
  shardIndex : ℕ := 0
  shardCount : ℕ := 1
  maxResults : ℕ := 100000
  maxVisits : ℕ := 2 ^ 32
  deriving Repr, DecidableEq

/-- One config per worker; a count of zero is refused. -/
def makePointerScanShards (base : PointerScanConfig) (shardCount : ℕ) :
    Except String (List PointerScanConfig) :=
  if shardCount = 0 then .error "pointer scan shard count must be greater than zero"
  else .ok <| (List.range shardCount).map fun i =>
    { base with shardIndex := i, shardCount := shardCount }

/-! ### The offset window -/

/-- `(uintptr_t)config.maxOffset`. -/
def PointerScanConfig.maxOffset64 (cfg : PointerScanConfig) : UInt64 :=
  cfg.maxOffset.toInt64.toUInt64

def searchMin (cfg : PointerScanConfig) (address : UInt64) : UInt64 :=
  if address > cfg.maxOffset64 then address - cfg.maxOffset64 else 0

def searchMax (cfg : PointerScanConfig) (address : UInt64) : UInt64 :=
  if cfg.negativeOffsets then
    address + min cfg.maxOffset64 (0xFFFFFFFFFFFFFFFF - address)
  else address

/-- Entries `[first, second)` whose pointer lands within `maxOffset` below `address` (or
above it, with `negativeOffsets`). -/
def window (map : PointerMap) (cfg : PointerScanConfig) (address : UInt64) : ℕ × ℕ :=
  (BinarySearch.lowerBound (fun e : Entry => e.pointsTo.toNat) map.byTarget
      (searchMin cfg address).toNat,
    BinarySearch.upperBound (fun e : Entry => e.pointsTo.toNat) map.byTarget
      (searchMax cfg address).toNat)

def InWindow (cfg : PointerScanConfig) (address pointsTo : UInt64) : Prop :=
  (if cfg.negativeOffsets then -cfg.maxOffset.toInt else 0) ≤ (address.toNat : ℤ) - pointsTo.toNat ∧
    (address.toNat : ℤ) - pointsTo.toNat ≤ cfg.maxOffset.toInt

theorem maxOffset64_toNat {cfg : PointerScanConfig} (h : 0 ≤ cfg.maxOffset) :
    (cfg.maxOffset64.toNat : ℤ) = cfg.maxOffset.toInt := by
  have h0 : 0 ≤ cfg.maxOffset.toBitVec.toInt := by
    have := Int32.le_iff_toInt_le.mp h
    simpa using this
  have h64 : (BitVec.signExtend 64 cfg.maxOffset.toBitVec).toInt = cfg.maxOffset.toBitVec.toInt :=
    BitVec.toInt_signExtend_of_le (by decide)
  change ((BitVec.signExtend 64 cfg.maxOffset.toBitVec).toNat : ℤ) = cfg.maxOffset.toBitVec.toInt
  rw [← h64] at h0 ⊢
  rw [BitVec.toInt_eq_toNat_bmod] at *
  simp only [Int.bmod] at *
  have := (BitVec.signExtend 64 cfg.maxOffset.toBitVec).isLt
  omega

theorem searchMin_toNat (cfg : PointerScanConfig) (address : UInt64) :
    (searchMin cfg address).toNat = address.toNat - cfg.maxOffset64.toNat := by
  unfold searchMin
  split
  · rename_i h
    exact UInt64.toNat_sub_of_le _ _ (UInt64.le_of_lt h)
  · rename_i h
    have := UInt64.le_iff_toNat_le.mp (UInt64.not_lt.mp h)
    simp only [UInt64.toNat_zero]
    omega

theorem searchMax_toNat (cfg : PointerScanConfig) (address : UInt64) :
    (searchMax cfg address).toNat =
      if cfg.negativeOffsets then min (address.toNat + cfg.maxOffset64.toNat) (2 ^ 64 - 1)
      else address.toNat := by
  unfold searchMax
  split
  · have ha := address.toNat_lt
    have hm := cfg.maxOffset64.toNat_lt
    have hle : address ≤ 0xFFFFFFFFFFFFFFFF := by
      rw [UInt64.le_iff_toNat_le]
      simp only [UInt64.reduceToNat]
      omega
    have hs : ((0xFFFFFFFFFFFFFFFF : UInt64) - address).toNat = 2 ^ 64 - 1 - address.toNat := by
      rw [UInt64.toNat_sub_of_le _ _ hle]
      rfl
    have hmin : (min cfg.maxOffset64 (0xFFFFFFFFFFFFFFFF - address)).toNat
        = min cfg.maxOffset64.toNat (2 ^ 64 - 1 - address.toNat) := by
      rw [← hs]
      change (if cfg.maxOffset64 ≤ 0xFFFFFFFFFFFFFFFF - address then cfg.maxOffset64
        else 0xFFFFFFFFFFFFFFFF - address).toNat = _
      split
      · rename_i h
        have := UInt64.le_iff_toNat_le.mp h
        omega
      · rename_i h
        rw [UInt64.le_iff_toNat_le] at h
        omega
    rw [UInt64.toNat_add, hmin]
    omega
  · rfl

theorem searchMin_le_searchMax (cfg : PointerScanConfig) (address : UInt64) :
    (searchMin cfg address).toNat ≤ (searchMax cfg address).toNat := by
  have ha := address.toNat_lt
  rw [searchMin_toNat, searchMax_toNat]
  split <;> omega

theorem window_le (map : PointerMap) (cfg : PointerScanConfig) (address : UInt64) :
    (window map cfg address).1 ≤ (window map cfg address).2 := by
  by_contra h
  have hlt : (window map cfg address).2 < (window map cfg address).1 := by omega
  have hle : (window map cfg address).1 ≤ map.byTarget.length :=
    BinarySearch.lowerBound_le map.sorted _
  have hlen : (window map cfg address).2 < map.byTarget.length := by omega
  have h1 := (BinarySearch.lt_lowerBound_iff map.sorted _ _ hlen).mp hlt
  have h2 := mt (BinarySearch.lt_upperBound_iff map.sorted _ _ hlen).mpr (lt_irrefl _)
  have := searchMin_le_searchMax cfg address
  omega

theorem mem_window_iff {map : PointerMap} {cfg : PointerScanConfig} (h0 : 0 ≤ cfg.maxOffset)
    (address : UInt64) (i : ℕ) :
    ((window map cfg address).1 ≤ i ∧ i < (window map cfg address).2) ↔
      i < map.byTarget.length ∧ InWindow cfg address (map.entry i).pointsTo := by
  have hle : (window map cfg address).2 ≤ map.byTarget.length :=
    BinarySearch.upperBound_le map.sorted _
  by_cases hi : i < map.byTarget.length
  · have he : map.entry i = map.byTarget[i] := List.getD_eq_getElem _ _ hi
    have h1 : i < (window map cfg address).1 ↔ _ :=
      BinarySearch.lt_lowerBound_iff map.sorted (searchMin cfg address).toNat i hi
    have h2 : i < (window map cfg address).2 ↔ _ :=
      BinarySearch.lt_upperBound_iff map.sorted (searchMax cfg address).toNat i hi
    rw [← not_lt, h1, h2, searchMin_toNat, searchMax_toNat, InWindow, he]
    have hm := maxOffset64_toNat h0
    have ha := address.toNat_lt
    have hp := map.byTarget[i].pointsTo.toNat_lt
    simp only [hi, true_and]
    split <;> omega
  · constructor
    · rintro ⟨-, h⟩
      omega
    · rintro ⟨h, -⟩
      exact absurd h hi

/-! ### Recording a chain -/

/-- The base a chain ending in slot `locatedAt` gets, or `none` where the scan skips it:
a slot of another shard, or plain memory under `staticOnly`. -/
def endpoint (modules : List ModuleInfo) (cfg : PointerScanConfig) (locatedAt : UInt64) :
    Option (String × UInt64 × UInt64) :=
  match findModule modules locatedAt with
  | some i =>
    if cfg.shardCount > 1 && i % cfg.shardCount != cfg.shardIndex then none
    else
      let m := moduleAt modules i
      some (m.name, m.base, locatedAt - m.base)
  | none =>
    if cfg.staticOnly then none
    else if cfg.shardCount > 1
        && (locatedAt >>> 12).toNat % cfg.shardCount != cfg.shardIndex then none
    else some ("", 0, locatedAt)

/-- The path of a chain: `offsets` innermost first. -/
def pathAt (modules : List ModuleInfo) (cfg : PointerScanConfig) (e : Entry)
    (offsets : List Int32) : Option PointerPath :=
  (endpoint modules cfg e.locatedAt).map fun b =>
    { module := b.1, moduleBase := b.2.1, baseOffset := b.2.2, offsets }

/-- Record the path that ends at `e`; `none` when the result cap is reached. -/
def record (modules : List ModuleInfo) (cfg : PointerScanConfig) (e : Entry)
    (offsets : List Int32) (results : List PointerPath) : Option (List PointerPath) :=
  match pathAt modules cfg e offsets with
  | none => some results
  | some path => if results.length ≥ cfg.maxResults then none else some (results ++ [path])

/-! ### One pass -/

/-- A level of the walk: the address pointers are searched for and the entries still to
examine. -/
structure Frame where
  address : UInt64
  next : ℕ
  finish : ℕ
  deriving Repr, DecidableEq

/-- The walk's state.  `stack`, `chain` and `ancestors` are kept innermost first. -/
structure Walk where
  stack : List Frame
  chain : List Int32
  ancestors : List UInt64
  results : List PointerPath
  visits : ℕ
  polls : ℕ
  deeper : Bool
  stop : Bool
  limitResults : Bool
  limitWork : Bool
  deriving Repr, DecidableEq

section Scan

variable (map : PointerMap) (cfg : PointerScanConfig) (cancelled : ℕ → Bool)

/-- What the loop body does with entry `i` of the top frame once it has been counted:
record it at the pass's depth, descend into a fresh slot above it, or leave it. -/
def examine (pass : ℕ) (s : Walk) (frame : Frame) (below : List Frame) : Walk :=
  let e := map.entry frame.next
  let offset := toOffset (frame.address - e.pointsTo)
  let fresh := !s.ancestors.contains e.locatedAt
  let s := { s with stack := { frame with next := frame.next + 1 } :: below }
  if below.length + 1 = pass then
    match record map.modules cfg e (offset :: s.chain) s.results with
    | none => { s with limitResults := true, stop := true }
    | some results => { s with results, deeper := s.deeper || fresh }
  else if fresh then
    let w := window map cfg e.locatedAt
    { s with
      chain := offset :: s.chain
      ancestors := e.locatedAt :: s.ancestors
      stack := ⟨e.locatedAt, w.1, w.2⟩ :: s.stack }
  else s

@[simp] theorem examine_visits (pass : ℕ) (s : Walk) (frame : Frame) (below : List Frame) :
    (examine map cfg pass s frame below).visits = s.visits := by
  unfold examine
  dsimp only
  split
  · split <;> rfl
  · split <;> rfl

/-- Leave a finished frame. -/
def Walk.pop (s : Walk) (below : List Frame) : Walk :=
  { s with
    stack := below
    chain := if below.isEmpty then s.chain else s.chain.tail
    ancestors := if below.isEmpty then s.ancestors else s.ancestors.tail }

def Walk.pollsNext (s : Walk) : Bool := (s.visits + 1) % 1024 == 0

def Walk.counted (s : Walk) : Walk :=
  { s with visits := s.visits + 1, polls := if s.pollsNext then s.polls + 1 else s.polls }

/-- The loop of one pass.  An iteration either pops a frame or counts a visit below the
visit limit, so the loop ends. -/
def walk (pass : ℕ) (s : Walk) : Walk :=
  match _hs : s.stack with
  | [] => s
  | frame :: below =>
    if frame.next = frame.finish then walk pass (s.pop below)
    else if s.visits ≥ cfg.maxVisits then { s with limitWork := true, stop := true }
    else if s.pollsNext && cancelled s.polls then { s.counted with stop := true }
    else if (examine map cfg pass s.counted frame below).stop then
      examine map cfg pass s.counted frame below
    else walk pass (examine map cfg pass s.counted frame below)
termination_by (cfg.maxVisits - s.visits, s.stack.length)
decreasing_by
  · rw [_hs]
    exact Prod.Lex.right _ (by simp [Walk.pop])
  · apply Prod.Lex.left
    rw [examine_visits]
    simp only [Walk.counted]
    omega

theorem walk_nil {pass : ℕ} {s : Walk} (hs : s.stack = []) : walk map cfg cancelled pass s = s := by
  rw [walk]
  split
  · rfl
  · rename_i h
    rw [hs] at h
    cases h

theorem walk_cons {pass : ℕ} {s : Walk} {frame : Frame} {below : List Frame}
    (hs : s.stack = frame :: below) :
    walk map cfg cancelled pass s =
      if frame.next = frame.finish then walk map cfg cancelled pass (s.pop below)
      else if s.visits ≥ cfg.maxVisits then { s with limitWork := true, stop := true }
      else if s.pollsNext && cancelled s.polls then { s.counted with stop := true }
      else if (examine map cfg pass s.counted frame below).stop then
        examine map cfg pass s.counted frame below
      else walk map cfg cancelled pass (examine map cfg pass s.counted frame below) := by
  rw [walk]
  split
  · rename_i h
    rw [hs] at h
    cases h
  · rename_i f b h
    rw [hs] at h
    cases h
    rfl

def startPass (s : Walk) : Walk :=
  let w := window map cfg cfg.targetAddress
  { s with
    deeper := false
    stack := [⟨cfg.targetAddress, w.1, w.2⟩]
    chain := []
    ancestors := [cfg.targetAddress] }

/-- The passes from `pass` on, `remaining` of them at most.  A pass that recorded no slot it
could walk on from ends the scan. -/
def passes : (remaining pass : ℕ) → Walk → Walk
  | 0, _, s => s
  | remaining + 1, pass, s =>
    if s.stop then s
    else if cancelled s.polls then { s with polls := s.polls + 1 }
    else
      let s' := walk map cfg cancelled pass
        (startPass map cfg { s with polls := s.polls + 1 })
      if s'.deeper then passes remaining (pass + 1) s' else s'

/-- A scan's paths with the limits it reached (`limit_`). -/
structure ScanOutcome where
  paths : List PointerPath
  limitResults : Bool
  limitWork : Bool
  limitMapEntries : Bool
  deriving Repr, DecidableEq

def initialWalk : Walk :=
  { stack := [], chain := [], ancestors := [], results := [], visits := 0, polls := 0,
    deeper := false, stop := false, limitResults := false, limitWork := false }

/-- The checks at the head of `scanWithMap`; a config that fails them finds nothing. -/
def PointerScanConfig.runnable (cfg : PointerScanConfig) : Bool :=
  !(cfg.shardCount == 0 || decide (cfg.shardIndex ≥ cfg.shardCount)
    || decide (cfg.maxDepth ≤ 0) || decide (cfg.maxOffset < 0))

def scanWithMap : ScanOutcome :=
  if !cfg.runnable then ⟨[], false, false, false⟩
  else
    let s := passes map cfg cancelled cfg.maxDepth.toNat 1 initialWalk
    ⟨if cancelled s.polls then [] else s.results, s.limitResults, s.limitWork, map.truncated⟩

end Scan

end CheatEngine
