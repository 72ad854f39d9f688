import Mathlib.Data.Nat.Bitwise
import CheatEngineLinux.Scanner.NextScanFilter
import CheatEngineLinux.Scanner.ScanAmounts

/-!
# A next scan of all types

A row of an all-type scan stands for several types at once.  Its widest type is read first; where
that read fails, the types of that width are given up and the rest is read again.

* `readAllCandidates_eq` — **PROVED**: the batched reads read each row on its own;
* `readRow_read` — **PROVED**: a row is read as each of its types whose own bytes can be read;
* `nextScan_narrows` — **PROVED**: a row is left with the types that still match, and is dropped
  when there are none.
-/

namespace CheatEngine

open RecordFile ScanResult Slices

/-! ### Masks -/

theorem hasCandidate_eq_getLsbD (mask : UInt8) {bit : ℕ} (h : bit < 8) :
    hasCandidate mask bit = mask.toBitVec.getLsbD bit := by
  have hone : (UInt8.ofNat (2 ^ bit)).toNat = 2 ^ bit :=
    UInt8.toNat_ofNat_of_lt' (by rw [UInt8.size]; exact Nat.pow_lt_pow_right (by decide) h)
  have hand : (mask &&& UInt8.ofNat (2 ^ bit)).toNat = (mask.toNat.testBit bit).toNat * 2 ^ bit := by
    rw [UInt8.toNat_and, hone, Nat.and_two_pow]
  have hlsb : mask.toBitVec.getLsbD bit = mask.toNat.testBit bit := rfl
  rw [hasCandidate, hlsb, Bool.eq_iff_iff, bne_iff_ne, Ne, ← UInt8.toNat_inj, hand, UInt8.toNat_zero]
  cases mask.toNat.testBit bit with
  | false => simp
  | true => simp

theorem hasCandidate_clear (mask : UInt8) {bit : ℕ} (other : ℕ) (hb : bit < 8) :
    hasCandidate (mask &&& ~~~UInt8.ofNat (2 ^ other)) bit
      = (hasCandidate mask bit && !decide (other = bit)) := by
  have hone : (UInt8.ofNat (2 ^ other)).toBitVec.getLsbD bit = decide (other = bit) := by
    change (BitVec.ofNat 8 (2 ^ other)).getLsbD bit = _
    rw [BitVec.getLsbD_ofNat, Nat.testBit_two_pow, decide_eq_true hb, Bool.true_and]
  rw [hasCandidate_eq_getLsbD _ hb, hasCandidate_eq_getLsbD _ hb, UInt8.toBitVec_and,
    BitVec.getLsbD_and, UInt8.toBitVec_not, BitVec.getLsbD_not, hone, decide_eq_true hb,
    Bool.true_and]

theorem hasCandidate_clearing {drops : ℕ → Bool} {bit : ℕ} (hb : bit < 8) :
    ∀ (cs : List (ℕ × ℕ)) (mask : UInt8), hasCandidate (cs.foldl (fun mask c =>
        if drops c.1 then mask &&& ~~~UInt8.ofNat (2 ^ c.2) else mask) mask) bit
      = (hasCandidate mask bit && !cs.any fun c => decide (c.2 = bit) && drops c.1) := by
  intro cs
  induction cs with
  | nil => simp
  | cons c cs ih =>
    intro mask
    rw [List.foldl_cons, ih, List.any_cons]
    cases hd : drops c.1
    · simp
    · rw [if_pos rfl, hasCandidate_clear mask c.2 hb]
      cases hasCandidate mask bit <;> cases decide (c.2 = bit) <;> simp

theorem width_at {bit width : ℕ} (h : allCandidateWidths[bit]? = some width) :
    bit < 8 ∧ ∀ drops : ℕ → Bool,
      (allCandidateWidths.zipIdx.any fun c => decide (c.2 = bit) && drops c.1) = drops width := by
  have hlt := (List.getElem?_eq_some_iff.mp h).1
  have hlen : allCandidateWidths.length = 6 := rfl
  refine ⟨by omega, fun drops => ?_⟩
  match bit, h with
  | 0, h => cases h; simp [allCandidateWidths]
  | 1, h => cases h; simp [allCandidateWidths]
  | 2, h => cases h; simp [allCandidateWidths]
  | 3, h => cases h; simp [allCandidateWidths]
  | 4, h => cases h; simp [allCandidateWidths]
  | 5, h => cases h; simp [allCandidateWidths]

theorem hasCandidate_dropWidth {bit width : ℕ} (h : allCandidateWidths[bit]? = some width)
    (dropped : ℕ) (mask : UInt8) :
    hasCandidate (dropWidth dropped mask) bit
      = (hasCandidate mask bit && !decide (width = dropped)) := by
  obtain ⟨hb, hany⟩ := width_at h
  have := @hasCandidate_clearing (fun w => decide (w = dropped)) bit hb allCandidateWidths.zipIdx mask
  rw [hany fun w => decide (w = dropped)] at this
  simpa only [dropWidth, decide_eq_true_eq] using this

theorem hasCandidate_fitting {bit width : ℕ} (h : allCandidateWidths[bit]? = some width)
    (lastDistance : ℕ) (mask : UInt8) :
    hasCandidate (allCandidatesFitting mask lastDistance) bit
      = (hasCandidate mask bit && decide (width - 1 ≤ lastDistance)) := by
  obtain ⟨hb, hany⟩ := width_at h
  have := @hasCandidate_clearing (fun w => decide (w - 1 > lastDistance)) bit hb allCandidateWidths.zipIdx mask
  rw [hany fun w => decide (w - 1 > lastDistance), ← decide_not] at this
  simpa only [allCandidatesFitting, decide_eq_true_eq, not_lt, gt_iff_lt] using this

theorem allCandidateReadSize_spec (mask : UInt8) :
    (∀ bit width, allCandidateWidths[bit]? = some width → hasCandidate mask bit = true →
        width ≤ allCandidateReadSize mask) ∧
      (allCandidateReadSize mask ≠ 0 → ∃ bit, hasCandidate mask bit = true ∧
        allCandidateWidths[bit]? = some (allCandidateReadSize mask)) := by
  have hfold : ∀ (cs : List (ℕ × ℕ)) (size : ℕ),
      (size ≤ cs.foldl (fun size c => if hasCandidate mask c.2 then max size c.1 else size) size) ∧
      (∀ c ∈ cs, hasCandidate mask c.2 = true →
        c.1 ≤ cs.foldl (fun size c => if hasCandidate mask c.2 then max size c.1 else size) size) ∧
      (cs.foldl (fun size c => if hasCandidate mask c.2 then max size c.1 else size) size = size ∨
        ∃ c ∈ cs, hasCandidate mask c.2 = true ∧
          cs.foldl (fun size c => if hasCandidate mask c.2 then max size c.1 else size) size
            = c.1) := by
    intro cs
    induction cs with
    | nil => exact fun size => ⟨Nat.le_refl _, by simp, Or.inl rfl⟩
    | cons c cs ih =>
      intro size
      obtain ⟨h1, h2, h3⟩ := ih (if hasCandidate mask c.2 then max size c.1 else size)
      rw [List.foldl_cons]
      refine ⟨?_, ?_, ?_⟩
      · refine le_trans ?_ h1
        split <;> omega
      · intro d hd hhas
        rcases List.mem_cons.mp hd with rfl | hd
        · refine le_trans ?_ h1
          rw [if_pos hhas]
          omega
        · exact h2 d hd hhas
      · rcases h3 with h3 | ⟨d, hd, hhas, h3⟩
        · rw [h3]
          split
          · rename_i hhas
            rcases Nat.le_total c.1 size with hle | hle
            · exact Or.inl (Nat.max_eq_left hle)
            · exact Or.inr ⟨c, List.mem_cons_self, hhas, Nat.max_eq_right hle⟩
          · exact Or.inl rfl
        · exact Or.inr ⟨d, List.mem_cons_of_mem _ hd, hhas, h3⟩
  obtain ⟨-, h2, h3⟩ := hfold allCandidateWidths.zipIdx 0
  refine ⟨fun bit width hw hhas => ?_, fun hne => ?_⟩
  · exact h2 (width, bit) (List.mem_zipIdx_iff_getElem?.mpr hw) hhas
  · rcases h3 with h3 | ⟨c, hc, hhas, h3⟩
    · exact absurd h3 hne
    · refine ⟨c.2, hhas, ?_⟩
      rw [List.mem_zipIdx_iff_getElem?] at hc
      rw [hc]
      exact congrArg some h3.symm

/-! ### Reading a row -/

theorem readBytes_take {mem : Memory} {a n k : ℕ} {bytes : List UInt8}
    (h : readBytes mem a n = some bytes) (hk : k ≤ n) :
    readBytes mem a k = some (bytes.take k) := by
  induction k generalizing a n bytes with
  | zero => rfl
  | succ k ih =>
    obtain ⟨n, rfl⟩ : ∃ m, n = m + 1 := ⟨n - 1, by omega⟩
    rw [readBytes] at h ⊢
    cases hb : mem a with
    | none => rw [hb] at h; cases h
    | some b =>
      cases hrest : readBytes mem (a + 1) n with
      | none => rw [hb, hrest] at h; cases h
      | some rest =>
        rw [hb, hrest] at h
        rw [ih hrest (by omega), ← Option.some.inj h, List.take_succ_cons]

def readWidth (mem : Memory) (row : SelectedRow) (width : ℕ) : SelectedRow :=
  if allCandidateReadSize row.pending = width then
    match readBytes mem row.address.toNat width with
    | some bytes =>
      { row with
        current := bytes.take width ++ row.current.drop width
        read := row.pending
        pending := 0 }
    | none => { row with pending := dropWidth width row.pending }
  else row

def readRow (mem : Memory) (row : SelectedRow) : SelectedRow :=
  [8, 4, 2, 1].foldl (readWidth mem) { row with current := List.replicate 8 0 }

theorem applyReads_eq (mem : Memory) (width : ℕ) (rows : List SelectedRow) :
    applyReads width rows ((rows.filter fun row => allCandidateReadSize row.pending = width).map
        fun row => readBytes mem row.address.toNat width)
      = rows.map (readWidth mem · width) := by
  induction rows with
  | nil => rfl
  | cons row rows ih =>
    rw [List.map_cons, readWidth]
    by_cases hw : allCandidateReadSize row.pending = width
    · rw [if_pos hw, List.filter_cons_of_pos (by simpa using hw), List.map_cons]
      cases readBytes mem row.address.toNat width with
      | none => simp only [applyReads, hw, if_true, ih]
      | some bytes => simp only [applyReads, hw, if_true, ih]
    · rw [if_neg hw, List.filter_cons_of_neg (by simpa using hw)]
      simp only [applyReads, hw, if_false, ih]

theorem readAllCandidates_eq {target : ScanTarget} {mem : Memory} (hread : ReadsMemory target mem)
    (rows : List SelectedRow) : readAllCandidates target rows = rows.map (readRow mem) := by
  have hstep : ∀ (width : ℕ) (rows : List SelectedRow),
      (if (rows.filter fun row => allCandidateReadSize row.pending = width).isEmpty then rows
        else applyReads width rows (target.readMany ((rows.filter fun row =>
          allCandidateReadSize row.pending = width).map SelectedRow.address) width))
        = rows.map (readWidth mem · width) := by
    intro width rows
    rw [hread, List.map_map]
    have happly := applyReads_eq mem width rows
    split
    · rename_i hempty
      rw [List.isEmpty_iff, List.filter_eq_nil_iff] at hempty
      have hsame : ∀ row ∈ rows, readWidth mem row width = row := by
        intro row hrow
        rw [readWidth, if_neg (by simpa using hempty row hrow)]
      exact (List.map_congr_left hsame).symm ▸ (List.map_id _).symm
    · exact happly
  have hfold : ∀ (widths : List ℕ) (rows : List SelectedRow),
      widths.foldl (fun rows width =>
        let wanted := rows.filter fun row => allCandidateReadSize row.pending = width
        if wanted.isEmpty then rows
        else applyReads width rows (target.readMany (wanted.map SelectedRow.address) width)) rows
        = rows.map fun row => widths.foldl (readWidth mem) row := by
    intro widths
    induction widths with
    | nil => simp
    | cons width widths ih =>
      intro rows
      rw [List.foldl_cons]
      dsimp only
      rw [hstep, ih, List.map_map]
      rfl
  rw [readAllCandidates, hfold, List.map_map]
  rfl

theorem width_values {bit width : ℕ} (h : allCandidateWidths[bit]? = some width) :
    width = 1 ∨ width = 2 ∨ width = 4 ∨ width = 8 := by
  have hmem := List.mem_of_getElem? h
  simp only [allCandidateWidths, List.mem_cons, List.not_mem_nil, or_false] at hmem
  omega

section Row

variable {mem : Memory} {mask : UInt8} {row : SelectedRow} {width : ℕ}

/-- A row none of whose reads has succeeded: its candidates wider than `width` have failed. -/
structure StillPending (mem : Memory) (mask : UInt8) (width : ℕ) (row : SelectedRow) : Prop where
  read : row.read = 0
  current : row.current = List.replicate 8 0
  bits : ∀ bit w, allCandidateWidths[bit]? = some w →
    hasCandidate row.pending bit = (hasCandidate mask bit && decide (w ≤ width))
  failed : ∀ bit w, allCandidateWidths[bit]? = some w → hasCandidate mask bit = true → width < w →
    readBytes mem row.address.toNat w = none

/-- A row that has been read: as the candidates whose own bytes can be read. -/
structure ReadAs (mem : Memory) (mask : UInt8) (row : SelectedRow) : Prop where
  length : row.current.length = 8
  bits : ∀ bit w, allCandidateWidths[bit]? = some w →
    hasCandidate row.read bit = (hasCandidate mask bit && (readBytes mem row.address.toNat w).isSome)
  bytes : ∀ bit w, allCandidateWidths[bit]? = some w → hasCandidate row.read bit = true →
    readBytes mem row.address.toNat w = some (row.current.take w)

theorem hasCandidate_zero (bit : ℕ) : hasCandidate 0 bit = false := by
  rw [hasCandidate, UInt8.zero_and]
  rfl

theorem readSize_zero : allCandidateReadSize 0 = 0 := by
  decide

theorem readWidth_step (h : StillPending mem mask width row)
    (hw : width = 1 ∨ width = 2 ∨ width = 4 ∨ width = 8) :
    StillPending mem mask (width / 2) (readWidth mem row width) ∨
      (ReadAs mem mask (readWidth mem row width) ∧ (readWidth mem row width).pending = 0) := by
  obtain ⟨hwidest, hsome⟩ := allCandidateReadSize_spec row.pending
  rw [readWidth]
  split
  · cases hread : readBytes mem row.address.toNat width with
    | some bytes =>
      have hlen := readBytes_length hread
      have htake : ∀ w, w ≤ width →
          (bytes.take width ++ row.current.drop width).take w = bytes.take w := by
        intro w hle
        rw [List.take_append_of_le_length (by rw [List.length_take]; omega), List.take_take,
          Nat.min_eq_left hle]
      refine Or.inr ⟨⟨?_, fun bit w hbit => ?_, fun bit w hbit hhas => ?_⟩, rfl⟩
      · rw [List.length_append, List.length_take, List.length_drop, h.current,
          List.length_replicate]
        omega
      · dsimp only
        rw [h.bits bit w hbit]
        by_cases hle : w ≤ width
        · rw [readBytes_take hread hle, decide_eq_true hle]
          rfl
        · rw [decide_eq_false hle, Bool.and_false]
          cases hm : hasCandidate mask bit
          · rfl
          · rw [h.failed bit w hbit hm (by omega)]
            rfl
      · dsimp only at hhas ⊢
        rw [h.bits bit w hbit, Bool.and_eq_true, decide_eq_true_eq] at hhas
        rw [readBytes_take hread hhas.2, htake w hhas.2]
    | none =>
      refine Or.inl ⟨h.read, h.current, fun bit w hbit => ?_, fun bit w hbit hhas hlt => ?_⟩
      · have hval := width_values hbit
        dsimp only
        rw [hasCandidate_dropWidth hbit, h.bits bit w hbit, Bool.and_assoc]
        congr 1
        rw [← decide_not, ← Bool.decide_and]
        exact decide_eq_decide.mpr (by omega)
      · have hval := width_values hbit
        by_cases hwide : width < w
        · exact h.failed bit w hbit hhas hwide
        · have : w = width := by omega
          rw [this]
          exact hread
  · rename_i hne
    -- no candidate left has this width
    have hnone : ∀ bit w, allCandidateWidths[bit]? = some w → hasCandidate mask bit = true →
        w ≠ width := by
      rintro bit w hbit hhas rfl
      have hpend : hasCandidate row.pending bit = true := by
        rw [h.bits bit w hbit, hhas, decide_eq_true (Nat.le_refl _)]
        rfl
      have hle := hwidest bit w hbit hpend
      obtain ⟨bit', hhas', hbit'⟩ := hsome (by omega)
      rw [h.bits bit' _ hbit', Bool.and_eq_true, decide_eq_true_eq] at hhas'
      omega
    refine Or.inl ⟨h.read, h.current, fun bit w hbit => ?_, fun bit w hbit hhas hlt => ?_⟩
    · have hval := width_values hbit
      rw [h.bits bit w hbit]
      cases hm : hasCandidate mask bit
      · rfl
      · have := hnone bit w hbit hm
        exact congrArg _ (decide_eq_decide.mpr (by omega))
    · have hval := width_values hbit
      have := hnone bit w hbit hhas
      exact h.failed bit w hbit hhas (by omega)

theorem readWidth_done (hzero : row.pending = 0) (hpos : 0 < width) :
    readWidth mem row width = row := by
  rw [readWidth, if_neg]
  rw [hzero, readSize_zero]
  omega

theorem readWidth_step' (hw : width = 1 ∨ width = 2 ∨ width = 4 ∨ width = 8)
    (h : StillPending mem mask width row ∨ (ReadAs mem mask row ∧ row.pending = 0)) :
    StillPending mem mask (width / 2) (readWidth mem row width) ∨
      (ReadAs mem mask (readWidth mem row width) ∧ (readWidth mem row width).pending = 0) := by
  rcases h with h | h
  · exact readWidth_step h hw
  · rw [readWidth_done h.2 (by omega)]
    exact Or.inr h

theorem StillPending.readAs (h : StillPending mem mask 0 row) : ReadAs mem mask row := by
  refine ⟨by rw [h.current]; rfl, fun bit w hbit => ?_, fun bit w hbit hhas => ?_⟩
  · rw [h.read, hasCandidate_zero]
    cases hm : hasCandidate mask bit
    · rfl
    · have hval := width_values hbit
      rw [h.failed bit w hbit hm (by omega)]
      rfl
  · rw [h.read, hasCandidate_zero] at hhas
    cases hhas

theorem readWidth_keeps : (readWidth mem row width).address = row.address ∧
    (readWidth mem row width).index = row.index := by
  rw [readWidth]
  split
  · cases readBytes mem row.address.toNat width <;> exact ⟨rfl, rfl⟩
  · exact ⟨rfl, rfl⟩

theorem readRow_keeps (row : SelectedRow) : (readRow mem row).address = row.address ∧
    (readRow mem row).index = row.index := by
  simp only [readRow, List.foldl_cons, List.foldl_nil, readWidth_keeps, and_self]

theorem readRow_index (row : SelectedRow) (i : ℕ) :
    readRow mem { row with index := i } = { readRow mem row with index := i } := by
  have hstep : ∀ (row : SelectedRow) (width : ℕ),
      readWidth mem { row with index := i } width = { readWidth mem row width with index := i } := by
    intro row width
    rw [readWidth, readWidth]
    split
    · cases readBytes mem row.address.toNat width <;> rfl
    · rfl
  simp only [readRow, List.foldl_cons, List.foldl_nil]
  rw [← hstep, ← hstep, ← hstep, ← hstep]

theorem readRow_read (hread : row.read = 0) : ReadAs mem row.pending (readRow mem row) := by
  have hstart : StillPending mem row.pending 8 { row with current := List.replicate 8 0 } := by
    refine ⟨hread, rfl, fun bit w hbit => ?_, fun bit w hbit hhas hlt => ?_⟩
    · have hval := width_values hbit
      rw [decide_eq_true (by omega), Bool.and_true]
    · have hval := width_values hbit
      omega
  have h4 := readWidth_step' (by omega) (Or.inl hstart)
  have h2 := readWidth_step' (by omega) h4
  have h1 := readWidth_step' (by omega) h2
  have h0 := readWidth_step' (by omega) h1
  rcases h0 with h | h
  · exact h.readAs
  · exact h.1

end Row

/-! ### What is kept of a row -/

section Keep

variable {plan : NextPlan} {mem : Memory}

def keepCandidates (config : ScanConfig) (mem : Memory) (row : ScanRow) (pending : UInt8) :
    Option ScanRow :=
  let read := readRow mem { index := 0, address := row.address, pending }
  let candidates := nextAllTypeCandidates config read.read read.current row.value row.first
  if candidates == 0 then none else some ⟨row.address, read.current, row.first, candidates⟩

def keepAllRow (plan : NextPlan) (mem : Memory) (row : ScanRow) : Option ScanRow :=
  (selectRow plan true row.address row.mask).bind (keepCandidates plan.config mem row)

/-- The samples a candidate is compared with. -/
def ScanRow.reference (config : ScanConfig) (row : ScanRow) : List UInt8 :=
  if config.compareType = .sameAsFirst then row.first else row.value

/-- A type of a row that goes on: it is in the mask of the row, lies in the range, has bytes of its
own that can be read, and these match. -/
structure Survives (config : ScanConfig) (mem : Memory) (row : ScanRow) (bit : ℕ) (type : ScalarType) :
    Prop where
  candidate : allCandidateTypes[bit]? = some type
  masked : hasCandidate row.mask bit = true
  above : config.startAddress ≤ row.address
  below : row.address.toNat + type.size - 1 ≤ config.stopAddress.toNat
  matching : ∃ bytes, readBytes mem row.address.toNat type.size = some bytes ∧
    nextAllCandidateMatches config type bytes ((row.reference config).take type.size) = true

theorem scalarBytes_own (size : ℕ) (bytes : List UInt8) (order : ByteOrder) :
    scalarBytes size (bytes.take size) order = scalarBytes size bytes order := by
  rw [scalarBytes, scalarBytes, List.take_take, Nat.min_self]

theorem nextAllCandidateMatches_take (config : ScanConfig) (type : ScalarType)
    (current reference : List UInt8) :
    nextAllCandidateMatches config type (current.take type.size) (reference.take type.size)
      = nextAllCandidateMatches config type current reference := by
  cases type with
  | int t =>
    simp only [nextAllCandidateMatches, ScalarType.size, IntType.read, scalarBytes_own]
  | float =>
    have hsize : ScanFloat.size Float32 = ScalarType.float.size := rfl
    simp only [nextAllCandidateMatches, readFloating, hsize, scalarBytes_own]
  | double =>
    have hsize : ScanFloat.size Float = ScalarType.double.size := rfl
    simp only [nextAllCandidateMatches, readFloating, hsize, scalarBytes_own]

theorem width_of_type {bit : ℕ} {type : ScalarType} (h : allCandidateTypes[bit]? = some type) :
    allCandidateWidths[bit]? = some type.size := by
  have hwidths : allCandidateWidths = allCandidateTypes.map ScalarType.size := rfl
  rw [hwidths, List.getElem?_map, h]
  rfl

theorem candidateMask_other (test : ScalarType → ℕ → Bool) :
    candidateMask test &&& 0xc0 = 0 := by
  have hbits : ∀ b0 b1 b2 b3 b4 b5 : Bool,
      ((if b0 then 1 else 0) ||| (if b1 then 2 else 0) ||| (if b2 then 4 else 0)
        ||| (if b3 then 8 else 0) ||| (if b4 then 16 else 0) ||| (if b5 then 32 else 0) : UInt8)
        &&& 0xc0 = 0 := by
    decide
  rw [candidateMask_eq]
  exact hbits _ _ _ _ _ _

theorem candidate_of_hasCandidate {test : ScalarType → ℕ → Bool} {bit : ℕ}
    (h : hasCandidate (candidateMask test) bit = true) :
    ∃ type, allCandidateTypes[bit]? = some type := by
  cases htype : allCandidateTypes[bit]? with
  | some type => exact ⟨type, rfl⟩
  | none =>
    have hge : 6 ≤ bit := List.getElem?_eq_none_iff.mp htype
    by_cases hlt : bit < 8
    · have hother : hasCandidate (candidateMask test &&& 0xc0) bit = true := by
        rw [hasCandidate_eq_getLsbD _ hlt] at h ⊢
        rw [UInt8.toBitVec_and, BitVec.getLsbD_and, h, Bool.true_and]
        rcases (show bit = 6 ∨ bit = 7 by omega) with rfl | rfl <;> decide
      rw [candidateMask_other, hasCandidate_zero] at hother
      cases hother
    · have hpow : UInt8.ofNat (2 ^ bit) = 0 := by
        refine UInt8.toNat_inj.mp ?_
        rw [UInt8.toNat_ofNat', UInt8.toNat_zero]
        exact Nat.mod_eq_zero_of_dvd (Nat.pow_dvd_pow 2 (Nat.not_lt.mp hlt))
      rw [hasCandidate, hpow, UInt8.and_zero] at h
      cases h

theorem candidateMask_ne_zero_iff {test : ScalarType → ℕ → Bool} :
    candidateMask test ≠ 0 ↔ ∃ bit type, allCandidateTypes[bit]? = some type ∧ test type bit = true := by
  constructor
  · intro hne
    by_contra hnone
    refine hne ?_
    have hfalse : ∀ bit type, allCandidateTypes[bit]? = some type → test type bit = false :=
      fun bit type hbit => Bool.eq_false_iff.mpr fun htest => hnone ⟨bit, type, hbit, htest⟩
    rw [candidateMask_eq, hfalse 0 _ rfl, hfalse 1 _ rfl, hfalse 2 _ rfl, hfalse 3 _ rfl,
      hfalse 4 _ rfl, hfalse 5 _ rfl]
    rfl
  · rintro ⟨bit, type, hbit, htest⟩ hzero
    have := hasCandidate_candidateMask test hbit
    rw [hzero, hasCandidate_zero, htest] at this
    cases this

/-- What is kept of a row: its types that go on. -/
inductive NarrowedTo (config : ScanConfig) (mem : Memory) (row : ScanRow) : Option ScanRow → Prop
  | dropped (h : ∀ bit type, ¬Survives config mem row bit type) : NarrowedTo config mem row none
  | kept (value : List UInt8) (mask : UInt8) (hne : ∃ bit type, Survives config mem row bit type)
      (hmask : ∀ bit, hasCandidate mask bit = true ↔ ∃ type, Survives config mem row bit type)
      (hvalue : ∀ bit type, Survives config mem row bit type →
        readBytes mem row.address.toNat type.size = some (value.take type.size)) :
      NarrowedTo config mem row (some ⟨row.address, value, row.first, mask⟩)

theorem selectRow_all (hall : plan.config.valueType = .all) (row : ScanRow) :
    selectRow plan true row.address row.mask =
      if row.address < plan.config.startAddress ∨ row.address > plan.config.stopAddress then none
      else if allCandidatesFitting row.mask (plan.config.stopAddress - row.address).toNat = 0 then none
      else some (allCandidatesFitting row.mask (plan.config.stopAddress - row.address).toNat) := by
  simp only [selectRow, hall, decide_true, Bool.not_true, Bool.and_false, Bool.false_and,
    Bool.false_eq_true, if_false, Bool.or_eq_true, decide_eq_true_eq, if_true, beq_iff_eq]

theorem survives_iff {row : ScanRow} {pending : UInt8} {bit : ℕ} {type : ScalarType}
    (hrange : ¬(row.address < plan.config.startAddress ∨ row.address > plan.config.stopAddress))
    (hpending : pending
      = allCandidatesFitting row.mask (plan.config.stopAddress - row.address).toNat)
    (hbit : allCandidateTypes[bit]? = some type) {read : SelectedRow}
    (hread : ReadAs mem pending read) (haddress : read.address = row.address) :
    Survives plan.config mem row bit type ↔
      (hasCandidate read.read bit && nextAllCandidateMatches plan.config type read.current
        (row.reference plan.config)) = true := by
  rw [not_or, UInt64.not_lt, gt_iff_lt, UInt64.not_lt] at hrange
  have hwidth := width_of_type hbit
  have hsub := UInt64.toNat_sub_of_le _ _ hrange.2
  have hle := UInt64.le_iff_toNat_le.mp hrange.2
  have hpos := width_values hwidth
  have hbits := hread.bits bit _ hwidth
  rw [hpending, hasCandidate_fitting hwidth, hsub, haddress] at hbits
  constructor
  · intro h
    obtain ⟨bytes, hbytes, hmatch⟩ := h.matching
    have hbelow := h.below
    have hhas : hasCandidate read.read bit = true := by
      rw [hbits, h.masked, hbytes, decide_eq_true (by omega)]
      rfl
    have hown := hread.bytes bit _ hwidth hhas
    rw [haddress, hbytes, Option.some_inj] at hown
    rw [hhas, Bool.true_and, ← nextAllCandidateMatches_take, ← hown]
    exact hmatch
  · intro h
    rw [Bool.and_eq_true] at h
    have hown := hread.bytes bit _ hwidth h.1
    rw [haddress] at hown
    rw [h.1, eq_comm, Bool.and_eq_true, Bool.and_eq_true, decide_eq_true_eq] at hbits
    refine ⟨hbit, hbits.1.1, hrange.1, by omega, _, hown, ?_⟩
    rw [nextAllCandidateMatches_take]
    exact h.2

theorem keepAllRow_narrows (hall : plan.config.valueType = .all) (row : ScanRow) :
    NarrowedTo plan.config mem row (keepAllRow plan mem row) := by
  rw [keepAllRow, selectRow_all hall]
  by_cases hrange : row.address < plan.config.startAddress ∨ row.address > plan.config.stopAddress
  · rw [if_pos hrange]
    refine .dropped fun bit type h => ?_
    have hbelow := h.below
    have hpos := width_values (width_of_type h.candidate)
    rcases hrange with hlow | hhigh
    · exact absurd hlow (UInt64.not_lt.mpr h.above)
    · have := UInt64.lt_iff_toNat_lt.mp hhigh
      omega
  · rw [if_neg hrange]
    obtain ⟨pending, hpending⟩ : ∃ p, p
      = allCandidatesFitting row.mask (plan.config.stopAddress - row.address).toNat := ⟨_, rfl⟩
    rw [← hpending]
    have hreadAs := @readRow_read mem { index := 0, address := row.address, pending } rfl
    have haddress := (@readRow_keeps mem { index := 0, address := row.address, pending }).1
    generalize hr : readRow mem { index := 0, address := row.address, pending } = read at hreadAs haddress
    have hsurvives : ∀ bit type, allCandidateTypes[bit]? = some type →
        (Survives plan.config mem row bit type ↔ (hasCandidate read.read bit
          && nextAllCandidateMatches plan.config type read.current (row.reference plan.config))
            = true) :=
      fun bit type hbit => survives_iff hrange hpending hbit hreadAs haddress
    have hmask : nextAllTypeCandidates plan.config read.read read.current row.value row.first =
        candidateMask fun type bit => hasCandidate read.read bit
          && nextAllCandidateMatches plan.config type read.current (row.reference plan.config) := rfl
    have hiff : nextAllTypeCandidates plan.config read.read read.current row.value row.first ≠ 0 ↔
        ∃ bit type, Survives plan.config mem row bit type := by
      rw [hmask, candidateMask_ne_zero_iff]
      constructor
      · rintro ⟨bit, type, hbit, htest⟩
        exact ⟨bit, type, (hsurvives bit type hbit).mpr htest⟩
      · rintro ⟨bit, type, h⟩
        exact ⟨bit, type, h.candidate, (hsurvives bit type h.candidate).mp h⟩
    by_cases hzero : nextAllTypeCandidates plan.config read.read read.current row.value row.first = 0
    · have hnone : (if pending = 0 then none else some pending).bind
          (keepCandidates plan.config mem row) = none := by
        split
        · rfl
        · simp only [Option.bind_some, keepCandidates, hr, hzero, beq_self_eq_true, if_true]
      rw [hnone]
      exact .dropped fun bit type h => hiff.mpr ⟨bit, type, h⟩ hzero
    · have hpne : pending ≠ 0 := by
        rintro rfl
        obtain ⟨bit, type, h⟩ := hiff.mp hzero
        have hbits := hreadAs.bits bit _ (width_of_type h.candidate)
        have htest := (hsurvives bit type h.candidate).mp h
        rw [hasCandidate_zero, Bool.false_and] at hbits
        rw [hbits] at htest
        cases htest
      rw [if_neg hpne]
      simp only [Option.bind_some, keepCandidates, hr, beq_iff_eq, hzero, if_false]
      refine .kept _ _ (hiff.mp hzero) (fun bit => ?_) fun bit type h => ?_
      · constructor
        · intro hhas
          rw [hmask] at hhas
          obtain ⟨type, hbit⟩ := candidate_of_hasCandidate hhas
          rw [hasCandidate_candidateMask _ hbit] at hhas
          exact ⟨type, (hsurvives bit type hbit).mpr hhas⟩
        · rintro ⟨type, h⟩
          rw [hmask, hasCandidate_candidateMask _ h.candidate]
          exact (hsurvives bit type h.candidate).mp h
      · have htest := (hsurvives bit type h.candidate).mp h
        rw [Bool.and_eq_true] at htest
        have hown := hreadAs.bytes bit _ (width_of_type h.candidate) htest.1
        rwa [haddress] at hown

end Keep

/-! ### The scan -/

section Scan

variable {iconv : String → List UInt8 → Option (List UInt8)} {σ : Type} {lua : FormulaEvaluator σ}
  {target : ScanTarget} {plan : NextPlan} {mem : Memory} {disk : Disk} {requested : ScanConfig}
  {parts : List (List ScanRow)} {previous : ScanResult}

def keepAllRows (plan : NextPlan) (mem : Memory) (st : σ) (rows : List ScanRow) : List ScanRow × σ :=
  (rows.filterMap (keepAllRow plan mem), st)

theorem keepAllRow_some {row kept : ScanRow} (h : keepAllRow plan mem row = some kept) :
    kept.value.length = 8 ∧ kept.first = row.first ∧ badMask kept.mask = false := by
  obtain ⟨pending, -, h⟩ := Option.bind_eq_some_iff.mp h
  have hreadAs := @readRow_read mem { index := 0, address := row.address, pending } rfl
  rw [keepCandidates] at h
  split at h
  · cases h
  · rename_i hne
    rw [← Option.some.inj h]
    refine ⟨hreadAs.length, rfl, ?_⟩
    rw [badMask, Bool.or_eq_false_iff]
    refine ⟨Bool.eq_false_iff.mpr hne, ?_⟩
    rw [nextAllTypeCandidates, candidateMask_other]
    rfl

theorem keepAllRows_sized {rows : List ScanRow} (hrows : RowsOfSize true 8 rows) (st : σ) :
    RowsOfSize true 8 (keepAllRows plan mem st rows).1 := by
  have hmem : ∀ kept ∈ (keepAllRows plan mem st rows).1, ∃ row ∈ rows,
      keepAllRow plan mem row = some kept := fun kept hkept => List.mem_filterMap.mp hkept
  refine ⟨by decide, fun kept hkept => ?_, fun kept hkept => ?_, fun _ => ⟨rfl, fun kept hkept => ?_⟩⟩
  · obtain ⟨row, -, h⟩ := hmem kept hkept
    exact (keepAllRow_some h).1
  · obtain ⟨row, hrow, h⟩ := hmem kept hkept
    rw [(keepAllRow_some h).2.1, hrows.first row hrow]
  · obtain ⟨row, -, h⟩ := hmem kept hkept
    exact (keepAllRow_some h).2.2

theorem nextBatch_all (hread : ReadsMemory target mem) (hall : plan.config.valueType = .all)
    {rows : List ScanRow} (hrows : RowsOfSize true plan.inputSize rows) (out : WorkerState σ) :
    nextBatch iconv lua target plan true (batchOf rows true) rows.length out =
      ((rows.filterMap (keepAllRow plan mem)).foldl (addRow true) out.1, out.2) := by
  have hstep : (rows.foldl (fun (out : WorkerState σ) row =>
      ((keepAllRow plan mem row).toList.foldl (addRow true) out.1, out.2)) out) =
      ((rows.filterMap (keepAllRow plan mem)).foldl (addRow true) out.1, out.2) := by
    clear hrows
    induction rows generalizing out with
    | nil => rfl
    | cons row rows ih =>
      rw [List.foldl_cons, ih]
      cases hk : keepAllRow plan mem row with
      | none => rw [List.filterMap_cons_none hk]; rfl
      | some kept => rw [List.filterMap_cons_some hk]; rfl
  rw [← hstep, nextBatch, if_pos hall, readAllCandidates_eq hread, List.foldl_map, selectRows,
    List.foldl_filterMap]
  refine foldl_range (fun i row out hi => ?_) out
  have haddr : (batchOf rows true).addrs.getD i 0 = row.address := by
    rw [List.getD_eq_getElem?_getD, batchOf, List.getElem?_map, hi]
    rfl
  have hmask : (batchOf rows true).candidates.getD i 0 = row.mask := by
    rw [List.getD_eq_getElem?_getD, batchOf, if_pos rfl, List.getElem?_map, hi]
    rfl
  have hold : recordAt plan.inputSize (batchOf rows true).oldVals i = row.value :=
    recordAt_flatMap hrows.value hi
  have hfirst : recordAt plan.inputSize (batchOf rows true).firstVals i = row.first :=
    recordAt_flatMap hrows.first hi
  simp only [haddr, hmask, keepAllRow]
  cases hsel : selectRow plan true row.address row.mask with
  | none => rfl
  | some pending =>
    have hindex := @readRow_index mem { index := 0, address := row.address, pending } i
    simp only [Option.map_some, Option.bind_some, hindex, emitAllRow, hold, hfirst, keepCandidates]
    have haddress := (@readRow_keeps mem { index := 0, address := row.address, pending }).1
    generalize readRow mem { index := 0, address := row.address, pending } = read at haddress
    by_cases hnone : read.read = 0
    · have hzero : nextAllTypeCandidates plan.config read.read read.current row.value row.first = 0 := by
        rw [hnone, nextAllTypeCandidates]
        by_contra hne
        obtain ⟨bit, type, -, htest⟩ := candidateMask_ne_zero_iff.mp hne
        rw [hasCandidate_zero] at htest
        cases htest
      simp only [hzero, beq_self_eq_true, if_true, ite_self]
      rfl
    · simp only [beq_iff_eq, hnone, if_false, haddress]
      split
      · rfl
      · rfl

theorem keepAllRows_keeping (hread : ReadsMemory target mem) (hall : plan.config.valueType = .all)
    (hsize : plan.valueSize = 8) (hinput : plan.inputSize = 8) :
    Keeping iconv lua target plan true true (keepAllRows plan mem) where
  typed := (decide_eq_true hall).symm
  nil _ := rfl
  append st rows rows' := by simp only [keepAllRows, List.filterMap_append]
  length st rows := List.length_filterMap_le _ _
  sized st rows hrows _ := by
    rw [hinput] at hrows
    rw [hsize]
    exact keepAllRows_sized hrows st
  batch _ hrows := nextBatch_all hread hall hrows

/-- What a reader of an all-type result is given. -/
structure ServesAll (disk : Disk) (rows : List ScanRow) (r : ScanResult) : Prop where
  count : r.count = rows.length
  writeError : r.writeError = false
  hasAllTypes : r.hasAllTypes = true
  address : ∀ i row, rows[i]? = some row → r.address disk i = row.address
  value : ∀ i row, rows[i]? = some row → r.value disk i 8 = row.value
  firstValue : ∀ i row, rows[i]? = some row → r.firstValue disk i 8 = row.first
  read : ∀ i n, i + n ≤ rows.length →
    (ShardReader.create disk r.shardLayout true).read i n 8 true =
      some (batchOf ((rows.drop i).take n) true)

theorem Opened.servesAll {r : ScanResult} (h : Opened disk true 8 parts r) :
    ServesAll disk parts.flatten r where
  count := h.count
  writeError := h.writeError
  hasAllTypes := h.hasAllTypes
  address _ _ hi := h.address_eq hi
  value _ _ hi := h.value_eq hi
  firstValue _ _ hi := h.firstValue_eq hi
  read _ _ hin := h.read_eq hin

theorem nextScanPlan_all {description : TargetDescription}
    (h : nextScanPlan iconv description disk requested previous = .ok plan)
    (hall : requested.valueType = .all) :
    plan.config.valueType = .all ∧ plan.valueSize = 8 ∧
      (previous.hasAllTypes = true → plan.inputSize = 8) := by
  simp only [nextScanPlan, bind_eq_ok, refuseIf_eq_ok] at h
  obtain ⟨-, -, -, -, -, -, config, hconfig, -, -, -, -, size, hsize, -, -, needles, -, hplan⟩ := h
  cases hplan
  have hv : config.valueType = .all := (targetScanConfig_ok hconfig).valueType.trans hall
  rw [valueSizeForConfig, hv] at hsize
  exact ⟨hv, (Except.ok.inj hsize).symm, fun hprev => if_pos hprev⟩

/-- A next scan of all types narrows each row to the types that still match. -/
theorem nextScan_narrows (hread : ReadsMemory target mem)
    (hopen : Opened disk true 8 parts previous) (hmax : parts.flatten.length ≤ sizeMax)
    {resultDir : String} (hdir : NewScanDir disk resultDir) (threadCount : ℤ)
    (hplan : nextScanPlan iconv target.description disk requested previous = .ok plan)
    (hall : requested.valueType = .all) :
    ∃ r disk' narrow, nextScan iconv lua target disk threadCount resultDir requested previous
        = .ok (r, disk') ∧
      ServesAll disk' (parts.flatten.filterMap narrow) r ∧
      ∀ row, NarrowedTo plan.config mem row (narrow row) := by
  obtain ⟨hall', hsize, hinput⟩ := nextScanPlan_all hplan hall
  have hkeep := @keepAllRows_keeping iconv σ lua target plan mem hread hall' hsize
    (hinput hopen.hasAllTypes)
  obtain ⟨parts', hopened, hflat⟩ := runNextScan_opened hkeep (nextScanPlan_ok hplan)
    (fun _ => hsize) hopen hmax (by decide) hdir threadCount
  rw [hsize] at hopened
  have hkept : parts'.flatten = parts.flatten.filterMap (keepAllRow plan mem) := by
    rw [hflat]
    simp only [keepAllRows]
    rw [List.flatMap_def, ← List.filterMap_flatten, workerRuns_flatten]
  have hserves := hopened.servesAll
  rw [hkept] at hserves
  exact ⟨_, _, keepAllRow plan mem, nextScan_eq hplan, hserves, keepAllRow_narrows hall'⟩

end Scan

def byteAndQuad : ScanRow := ⟨0x1000, [5, 0, 0, 0, 0, 0, 0, 0], [5, 0, 0, 0, 0, 0, 0, 0], 9⟩

def lastByte : Memory := fun a => if a = 0x1000 then some 5 else none

theorem byteAndQuad_opened : Opened (oldDisk (allTypeResult byteAndQuad).2) true 8 [[byteAndQuad]]
    (allTypeResult byteAndQuad).1 ∧ (allTypeResult byteAndQuad).1.format = none := by
  obtain ⟨hfin, hformat⟩ := @allTypeResult_finished byteAndQuad
    ⟨by decide, by decide, by decide, fun _ => by decide⟩
  exact ⟨@Finished.opened _ _ _ _ _ _ _ hfin (oldDisk (allTypeResult byteAndQuad).2) (if_pos rfl),
    hformat⟩

/-- A scan for what has not changed from an address on. -/
def unchangedFrom (start : UInt64) : ScanConfig :=
  { valueType := .all, compareType := .unchanged, startAddress := start }

theorem byteAndQuad_plan {start : UInt64} (mem : Memory)
    (hconfig : targetScanConfig noConversion {} (unchangedFrom start)
      = .ok (withTargetFormat {} (unchangedFrom start))) :
    nextScanPlan noConversion (memoryTarget mem).description
      (oldDisk (allTypeResult byteAndQuad).2) (unchangedFrom start) (allTypeResult byteAndQuad).1
      = .ok ⟨withTargetFormat {} (unchangedFrom start), 8, 8, {}⟩ := by
  obtain ⟨hopen, hformat⟩ := byteAndQuad_opened
  have hstride := hopen.recordStride_eq (by decide)
  simp only [nextScanPlan, memoryTarget, hopen.writeError, hopen.count, hopen.hasAllTypes, hstride,
    hconfig, checkDataFormat, hformat]
  rfl

/-- The quad cannot be read any more; the byte is kept. -/
theorem byte_outlives_quad :
    ∃ r disk' value mask, nextScan noConversion withoutFormula (memoryTarget lastByte)
        (oldDisk (allTypeResult byteAndQuad).2) 1 "/new"
        (unchangedFrom 0) (allTypeResult byteAndQuad).1 = .ok (r, disk') ∧
      ServesAll disk' [⟨byteAndQuad.address, value, byteAndQuad.first, mask⟩] r ∧
      hasCandidate mask 0 = true ∧ hasCandidate mask 3 = false := by
  obtain ⟨hopen, -⟩ := byteAndQuad_opened
  obtain ⟨r, disk', narrow, hscan, hserves, hnarrow⟩ := @nextScan_narrows noConversion Unit
    withoutFormula (memoryTarget lastByte) _ lastByte _ (unchangedFrom 0) _ _
    (fun _ _ => rfl) hopen (by decide) "/new" (oldDisk_new _) 1 (byteAndQuad_plan lastByte rfl) rfl
  have hbyte : Survives (withTargetFormat {} (unchangedFrom 0))
      lastByte byteAndQuad 0 (.int .uint8) :=
    ⟨rfl, by decide, by decide, by decide, [5], by decide, by decide⟩
  have hquad : ∀ type, ¬Survives (withTargetFormat {} (unchangedFrom 0))
      lastByte byteAndQuad 3 type := by
    intro type h
    have htype : type = .int .int64 := Option.some.inj (h.candidate.symm.trans rfl)
    obtain ⟨bytes, hbytes, -⟩ := h.matching
    rw [htype] at hbytes
    cases hbytes
  have hrow := hnarrow byteAndQuad
  generalize hkept : narrow byteAndQuad = kept at hrow
  cases hrow with
  | dropped h => exact absurd hbyte (h 0 _)
  | kept value mask hne hmask hvalue =>
    refine ⟨r, disk', value, mask, hscan, ?_, (hmask 0).mpr ⟨_, hbyte⟩, ?_⟩
    · simpa [hkept] using hserves
    · exact Bool.eq_false_iff.mpr fun h => (hquad _) ((hmask 3).mp h).choose_spec

/-- A row below From is dropped although its byte matches. -/
theorem row_below_from_dropped :
    let plan : NextPlan := ⟨withTargetFormat {} (unchangedFrom 0x2000), 8, 8, {}⟩
    let old := allTypeResult byteAndQuad
    Opened (oldDisk old.2) true 8 [[byteAndQuad]] old.1 ∧
      nextScanPlan noConversion (memoryTarget lastByte).description (oldDisk old.2)
        (unchangedFrom 0x2000) old.1 = .ok plan ∧
      hasCandidate byteAndQuad.mask 0 = true ∧
      byteAndQuad.address.toNat + 1 - 1 ≤ plan.config.stopAddress.toNat ∧
      readBytes lastByte byteAndQuad.address.toNat 1 = some [5] ∧
      nextAllCandidateMatches plan.config (.int .uint8) [5] (byteAndQuad.value.take 1) = true ∧
      ∃ r disk', nextScan noConversion withoutFormula (memoryTarget lastByte) (oldDisk old.2) 1 "/new"
        (unchangedFrom 0x2000) old.1 = .ok (r, disk') ∧ r.count = 0 := by
  intro plan old
  obtain ⟨hopen, -⟩ := byteAndQuad_opened
  have hplan := @byteAndQuad_plan 0x2000 lastByte rfl
  have hkeep := @keepAllRows_keeping noConversion Unit withoutFormula (memoryTarget lastByte) plan
    lastByte (fun _ _ => rfl) rfl rfl rfl
  obtain ⟨parts', hopened, hflat⟩ := runNextScan_opened hkeep (nextScanPlan_ok hplan) (fun _ => rfl)
    hopen (by decide) (by decide) (oldDisk_new _) 1
  have hnone : parts'.flatten = [] := by
    rw [hflat]
    decide
  have hscan := @nextScan_eq noConversion Unit withoutFormula (memoryTarget lastByte) plan
    (oldDisk old.2) (unchangedFrom 0x2000) old.1 "/new" 1 hplan
  generalize runNextScan noConversion withoutFormula (memoryTarget lastByte) plan (oldDisk old.2) 1
    "/new" old.1 = out at hscan hopened
  refine ⟨hopen, hplan, by decide, by decide, by decide, by decide, out.1, out.2, hscan, ?_⟩
  rw [hopened.count, hnone]
  rfl

end CheatEngine
