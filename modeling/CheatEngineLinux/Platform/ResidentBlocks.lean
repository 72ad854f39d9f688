import CheatEngineLinux.Scanner.ResidentPages

/-!
# The page table of the target, read in blocks

`LinuxProcessHandle::residentRanges` (`src/platform/linux/linux_process.cpp`) reads the entries of
the pages of a range in blocks, each by as many reads as it takes, and carries an open run from one
block to the next.

* `Pagemap`: the contents of the file, and how many bytes each read may give.
* `residentRanges`: the loop over the blocks, with its arithmetic on addresses.
* `ResidentRuns`: what runs say of the pages of a range.

* **PROVED `blockLoop_eq`**: the blocks give the runs that one pass over all pages gives.
* **PROVED `residentRuns_of_below`**: the runs are exact, unless a read fails.
* **PROVED `not_residentRuns_everywhere`**: an empty range, and a range on the last page of all.
-/

namespace CheatEngine.ResidentBlocks

open RecordFile StridedScan

/-! ### The loop over the blocks -/

/-- `/proc/<pid>/pagemap`: its bytes, and how many of them a read gives at most, by the number of
reads before it; none where it fails.  A read that is interrupted is made again. -/
structure Pagemap where
  bytes : ℕ → UInt8
  reads : ℕ → ℕ

/-- A page has a power of two of bytes. -/
structure PageSize where
  shift : ℕ
  least : 12 ≤ shift
  most : shift < 63

def PageSize.value (page : PageSize) : UInt64 := UInt64.ofNat (2 ^ page.shift)

/-- `while (got < want)`: the bytes that are left to read, and the number of reads so far. -/
def readBlock (m : Pagemap) : ℕ → ℕ → ℕ → ℕ → Option (List UInt8 × ℕ)
  | _, _, 0, now => some ([], now)
  | 0, _, _ + 1, _ => none
  | turns + 1, off, left + 1, now =>
    let r := min (m.reads now) (left + 1)
    if r = 0 then none
    else
      match readBlock m turns (off + r) (left + 1 - r) (now + 1) with
      | none => none
      | some (bytes, now) => some (imageAt m.bytes off r ++ bytes, now)

/-- `ent[k]` -/
def ent (bytes : List UInt8) (k : ℕ) : UInt64 := UInt64.ofNat (leNat ((bytes.drop (k * 8)).take 8))

/-- A run clipped to the range that was asked for, if anything is left. -/
def endRun (base stop runStart runEnd : UInt64) : List (UInt64 × UInt64) :=
  let a := max runStart base
  let b := min runEnd stop
  if b > a then [(a, b)] else []

abbrev Runs := Option UInt64 × List (UInt64 × UInt64)

def pageStep (base stop : UInt64) (state : Runs) (page : UInt64 × UInt64) : Runs :=
  match state.1 with
  | none => (if pageWorth page.2 then some page.1 else none, state.2)
  | some runStart =>
    if pageWorth page.2 then (some runStart, state.2)
    else (none, state.2 ++ endRun base stop runStart page.1)

/-- The blocks from `addr` on, in so many turns; `win` is the number of entries in a block. -/
def blockLoop (m : Pagemap) (pageSize : UInt64) (win : ℕ) (whole : List (UInt64 × UInt64))
    (base stop : UInt64) : ℕ → UInt64 → Runs → ℕ → Option (List (UInt64 × UInt64))
  | 0, _, _, _ => none
  | turns + 1, addr, state, now =>
    if addr < stop then
      let pagesLeft := (stop - addr + pageSize - 1) / pageSize
      let n := min win pagesLeft.toNat
      match readBlock m (n * 8) (addr.toNat / pageSize.toNat * 8) (n * 8) now with
      | none => some whole
      | some (bytes, now) =>
        let pages := (List.range n).map fun k => (addr + UInt64.ofNat k * pageSize, ent bytes k)
        blockLoop m pageSize win whole base stop turns (addr + UInt64.ofNat n * pageSize)
          (pages.foldl (pageStep base stop) state) now
    else
      match state.1 with
      | none => some state.2
      | some runStart => some (state.2 ++ endRun base stop runStart stop)

/-- The runs of a range; there is no page size, or no file, where asking for it fails. -/
def residentRanges (turns : ℕ) (page : Option PageSize) (win : ℕ) (pagemap : Option Pagemap)
    (base size : UInt64) : Option (List (UInt64 × UInt64)) :=
  let whole := [(base, base + size)]
  match page with
  | none => some whole
  | some page =>
    if size = 0 then some whole
    else
      match pagemap with
      | none => some whole
      | some m =>
        let start := base &&& ~~~(page.value - 1)
        blockLoop m page.value win whole base (base + size) turns start (none, []) 0

/-! ### Runs -/

def entryAt (m : Pagemap) (page : ℕ) : UInt64 := UInt64.ofNat (leNat (imageAt m.bytes (page * 8) 8))

/-- The present or the swapped bit of a page is set. -/
def Resident (m : Pagemap) (page : ℕ) : Prop :=
  (entryAt m page).toNat.testBit 63 = true ∨ (entryAt m page).toNat.testBit 62 = true

/-- The runs are ascending, disjoint and not empty, they lie in the range, and they are made up of
the addresses on resident pages. -/
structure ResidentRuns (m : Pagemap) (page : PageSize) (base stop : UInt64)
    (runs : List (UInt64 × UInt64)) : Prop where
  sorted : runs.Pairwise fun run run' => run.2 ≤ run'.1
  nonempty : ∀ run ∈ runs, run.1 < run.2
  within : ∀ run ∈ runs, base ≤ run.1 ∧ run.2 ≤ stop
  union : ∀ a, (∃ run ∈ runs, run.1 ≤ a ∧ a < run.2) ↔
    base ≤ a ∧ a < stop ∧ Resident m (a.toNat / 2 ^ page.shift)

theorem pageWorth_iff (entry : UInt64) :
    pageWorth entry = true ↔ entry.toNat.testBit 63 = true ∨ entry.toNat.testBit 62 = true := by
  have hbit : ∀ i < 64, ((entry >>> UInt64.ofNat i) &&& 1 != 0) = entry.toNat.testBit i := by
    intro i hi
    rw [Nat.testBit_eq_decide_div_mod_eq, bne, Bool.eq_iff_iff, Bool.not_eq_true',
      beq_eq_false_iff_ne, decide_eq_true_iff, Ne,
      ← UInt64.toNat_inj, UInt64.toNat_and, UInt64.toNat_shiftRight]
    have hmod : (UInt64.ofNat i).toNat % 64 = i := by
      rw [UInt64.toNat_ofNat_of_lt' (by rw [UInt64.size]; omega), Nat.mod_eq_of_lt hi]
    rw [hmod, Nat.shiftRight_eq_div_pow]
    change ¬entry.toNat / 2 ^ i &&& 1 = 0 ↔ _
    rw [Nat.and_one_is_mod]
    omega
  rw [pageWorth, Bool.or_eq_true]
  exact or_congr (Bool.eq_iff_iff.1 (hbit 63 (by decide))) (Bool.eq_iff_iff.1 (hbit 62 (by decide)))

/-! ### Blocks and the pass over all pages -/

theorem imageAt_append (mem : ℕ → UInt8) (base n n' : ℕ) :
    imageAt mem base (n + n') = imageAt mem base n ++ imageAt mem (base + n) n' := by
  simp only [imageAt, List.range_add, List.map_append, List.map_map, Nat.add_assoc,
    Function.comp_def]

theorem readBlock_eq (m : Pagemap) {turns left : ℕ} (off now : ℕ) (hturns : left ≤ turns) :
    (readBlock m turns off left now = none ∧ ∃ t, m.reads t = 0) ∨
      ∃ now', readBlock m turns off left now = some (imageAt m.bytes off left, now') := by
  induction turns generalizing off left now with
  | zero =>
    obtain rfl : left = 0 := by omega
    exact Or.inr ⟨now, rfl⟩
  | succ turns ih =>
    cases left with
    | zero => exact Or.inr ⟨now, rfl⟩
    | succ left =>
      rw [readBlock]
      by_cases hfailed : m.reads now = 0
      · exact Or.inl ⟨by simp [hfailed], now, hfailed⟩
      have hr : ¬min (m.reads now) (left + 1) = 0 := by omega
      simp only [if_neg hr]
      rcases @ih (left + 1 - min (m.reads now) (left + 1))
        (off + min (m.reads now) (left + 1)) (now + 1) (by omega) with
        ⟨hnone, hfails⟩ | ⟨now', hrest⟩
      · exact Or.inl ⟨by rw [hnone], hfails⟩
      · refine Or.inr ⟨now', ?_⟩
        rw [hrest]
        simp only [← imageAt_append, Nat.add_sub_of_le (Nat.min_le_right _ _)]

theorem ent_eq {m : Pagemap} {page n k : ℕ} (hk : k < n) :
    ent (imageAt m.bytes (page * 8) (n * 8)) k = entryAt m (page + k) := by
  rw [ent, entryAt, imageAt_window m.bytes (by omega), Nat.add_mul]

section Blocks

variable {m : Pagemap} {page : PageSize} {base stop addr : UInt64} {state : Runs} {n : ℕ}

/-- Addresses as numbers. -/
def natRun (run : UInt64 × UInt64) : ℕ × ℕ := (run.1.toNat, run.2.toNat)

/-- Whether a page holds data. -/
def worth (m : Pagemap) (page : ℕ) : Bool := pageWorth (entryAt m page)

theorem value_toNat (page : PageSize) : page.value.toNat = 2 ^ page.shift :=
  UInt64.toNat_ofNat_of_lt'
    (Nat.pow_lt_pow_right (by decide) (show page.shift < 64 by have := page.most; omega))

theorem toNat_max (a b : UInt64) : (max a b).toNat = max a.toNat b.toNat := by
  rw [UInt64.max_def, Nat.max_def]
  simp only [UInt64.le_iff_toNat_le]
  split <;> rfl

theorem toNat_min (a b : UInt64) : (min a b).toNat = min a.toNat b.toNat := by
  rw [UInt64.min_def, Nat.min_def]
  simp only [UInt64.le_iff_toNat_le]
  split <;> rfl

theorem endRun_nat (base stop runStart runEnd : UInt64) :
    (endRun base stop runStart runEnd).map natRun =
      CheatEngine.endRun base.toNat stop.toNat runStart.toNat runEnd.toNat := by
  rw [endRun, CheatEngine.endRun]
  simp only [gt_iff_lt, UInt64.lt_iff_toNat_lt, toNat_max, toNat_min]
  split
  · simp [natRun, toNat_max, toNat_min]
  · rfl

theorem residentScan_foldl (pages : List (UInt64 × UInt64)) (rest : List ℕ) (state : Runs)
    (hentry : ∀ p ∈ pages, p.2 = entryAt m (p.1.toNat / 2 ^ page.shift)) :
    ((pages.foldl (pageStep base stop) state).2.map natRun ++
      residentScan (worth m) base.toNat stop.toNat (2 ^ page.shift)
        ((pages.foldl (pageStep base stop) state).1.map UInt64.toNat) rest) =
    state.2.map natRun ++ residentScan (worth m) base.toNat stop.toNat (2 ^ page.shift)
      (state.1.map UInt64.toNat) (pages.map (fun p => p.1.toNat) ++ rest) := by
  induction pages generalizing state with
  | nil => rfl
  | cons p pages ih =>
    rw [List.foldl_cons, ih _ fun q hq => hentry q (List.mem_cons_of_mem _ hq)]
    have hworth : worth m (p.1.toNat / 2 ^ page.shift) = pageWorth p.2 := by
      rw [worth, hentry p List.mem_cons_self]
    rw [List.map_cons, List.cons_append]
    rcases state with ⟨_ | runStart, runs⟩
    · simp only [pageStep, Option.map_none, residentScan, hworth]
      cases pageWorth p.2 <;> rfl
    · simp only [pageStep, Option.map_some, residentScan, hworth]
      cases pageWorth p.2
      · simp [endRun_nat]
      · rfl

theorem pagesFrom_append {p stop pageSize : ℕ} (hpos : 0 < pageSize)
    (hbelow : ∀ k < n, p + k * pageSize < stop) :
    pagesFrom p stop pageSize =
      (List.range n).map (fun k => p + k * pageSize) ++
        pagesFrom (p + n * pageSize) stop pageSize := by
  induction n with
  | zero => simp
  | succ n ih =>
    rw [ih fun k hk => hbelow k (by omega), List.range_succ, List.map_append, List.append_assoc,
      pagesFrom_cons hpos (hbelow n (Nat.lt_succ_self n)), Nat.succ_mul, Nat.add_assoc]
    rfl

theorem page_below {p stop pageSize k : ℕ} (hpos : 0 < pageSize) (hlt : p < stop)
    (hk : k < (stop - p + pageSize - 1) / pageSize) : p + k * pageSize < stop := by
  have h := Nat.mul_le_of_le_div pageSize (k + 1) (stop - p + pageSize - 1) hk
  rw [Nat.succ_mul] at h
  omega

theorem pagesLeft_toNat (hlt : addr < stop) (hbelow : stop.toNat + 2 ^ page.shift ≤ 2 ^ 64) :
    ((stop - addr + page.value - 1) / page.value).toNat =
      (stop.toNat - addr.toNat + 2 ^ page.shift - 1) / 2 ^ page.shift := by
  have hpos := Nat.two_pow_pos page.shift
  rw [UInt64.lt_iff_toNat_lt] at hlt
  rw [UInt64.toNat_div, UInt64.toNat_sub, UInt64.toNat_add, UInt64.toNat_sub, value_toNat]
  have hone : (1 : UInt64).toNat = 1 := rfl
  rw [hone]
  congr 1
  have := stop.toNat_lt
  omega

theorem page_toNat {k : ℕ} (hbelow : addr.toNat + k * 2 ^ page.shift < 2 ^ 64) :
    (addr + UInt64.ofNat k * page.value).toNat = addr.toNat + k * 2 ^ page.shift := by
  have hle : k ≤ k * 2 ^ page.shift := Nat.le_mul_of_pos_right k (Nat.two_pow_pos _)
  have hk : (UInt64.ofNat k).toNat = k :=
    UInt64.toNat_ofNat_of_lt' (by rw [UInt64.size]; omega)
  rw [UInt64.toNat_add, UInt64.toNat_mul, value_toNat, hk,
    Nat.mod_eq_of_lt (show k * 2 ^ page.shift < 2 ^ 64 by omega), Nat.mod_eq_of_lt hbelow]

theorem blockLoop_eq {win turns now : ℕ} {whole : List (UInt64 × UInt64)} (hwin : 0 < win)
    (hbelow : stop.toNat + 2 ^ page.shift ≤ 2 ^ 64) (haddr : 2 ^ page.shift ∣ addr.toNat)
    (hturns : stop.toNat - addr.toNat < turns) :
    ∃ runs, blockLoop m page.value win whole base stop turns addr state now = some runs ∧
      ((∃ t, m.reads t = 0) ∧ runs = whole ∨
        runs.map natRun = state.2.map natRun ++
          residentScan (worth m) base.toNat stop.toNat (2 ^ page.shift)
            (state.1.map UInt64.toNat) (pagesFrom addr.toNat stop.toNat (2 ^ page.shift))) := by
  have hpos := Nat.two_pow_pos page.shift
  induction turns generalizing addr state now with
  | zero => omega
  | succ turns ih =>
    rw [blockLoop]
    split
    · rename_i hlt
      have hlt' : addr.toNat < stop.toNat := UInt64.lt_iff_toNat_lt.1 hlt
      simp only [pagesLeft_toNat hlt hbelow]
      generalize hn : min win ((stop.toNat - addr.toNat + 2 ^ page.shift - 1) / 2 ^ page.shift) = n
      have hn0 : 0 < n := by
        have : 0 < (stop.toNat - addr.toNat + 2 ^ page.shift - 1) / 2 ^ page.shift :=
          Nat.div_pos (by omega) hpos
        omega
      have hpages : ∀ k < n, addr.toNat + k * 2 ^ page.shift < stop.toNat :=
        fun k hk => page_below hpos hlt' (by omega)
      have htop : addr.toNat + n * 2 ^ page.shift < 2 ^ 64 := by
        have h := hpages (n - 1) (by omega)
        rw [Nat.sub_mul, Nat.one_mul] at h
        have : 2 ^ page.shift ≤ n * 2 ^ page.shift := Nat.le_mul_of_pos_left _ hn0
        omega
      obtain ⟨q, hq⟩ := haddr
      have hdiv : addr.toNat / page.value.toNat = q := by
        rw [value_toNat, hq, Nat.mul_div_cancel_left q hpos]
      rcases readBlock_eq m (addr.toNat / page.value.toNat * 8) now (Nat.le_refl (n * 8)) with
        ⟨hnone, hfails⟩ | ⟨now', hread⟩
      · rw [hnone]
        exact ⟨whole, rfl, Or.inl ⟨hfails, rfl⟩⟩
      · rw [hread]
        have hnext := page_toNat htop
        have hstep : 2 ^ page.shift ≤ n * 2 ^ page.shift := Nat.le_mul_of_pos_left _ hn0
        obtain ⟨runs, hruns, hends⟩ := @ih (addr + UInt64.ofNat n * page.value)
          (((List.range n).map fun k => (addr + UInt64.ofNat k * page.value,
            ent (imageAt m.bytes (addr.toNat / page.value.toNat * 8) (n * 8)) k)).foldl
              (pageStep base stop) state) now'
          (by rw [hnext]; exact Nat.dvd_add ⟨q, hq⟩ (Nat.dvd_mul_left _ _))
          (by omega)
        refine ⟨runs, hruns, hends.imp_right fun hends => ?_⟩
        rw [hends, @residentScan_foldl _ page, hnext, pagesFrom_append hpos hpages]
        · congr 3
          rw [List.map_map]
          refine List.map_congr_left fun k hk => page_toNat ?_
          have := hpages k (List.mem_range.1 hk)
          omega
        · intro p hp
          obtain ⟨k, hk, rfl⟩ := List.mem_map.1 hp
          have hk := List.mem_range.1 hk
          have hbelow' := hpages k hk
          dsimp only
          rw [page_toNat (by omega), hdiv, ent_eq hk, hq, Nat.mul_comm k, ← Nat.mul_add,
            Nat.mul_div_cancel_left _ hpos]
    · rename_i hge
      have hge' : stop.toNat ≤ addr.toNat := by
        rw [UInt64.lt_iff_toNat_lt] at hge
        omega
      rw [pagesFrom_nil hpos hge']
      rcases state with ⟨_ | runStart, runs⟩
      · exact ⟨runs, rfl, Or.inr (by simp [residentScan])⟩
      · exact ⟨_, rfl, Or.inr (by simp [residentScan, endRun_nat])⟩

end Blocks

theorem blockLoop_mono {m : Pagemap} {pageSize base stop : UInt64} {win : ℕ}
    {whole runs : List (UInt64 × UInt64)} {turns more now : ℕ} {addr : UInt64} {state : Runs}
    (h : blockLoop m pageSize win whole base stop turns addr state now = some runs)
    (hle : turns ≤ more) :
    blockLoop m pageSize win whole base stop more addr state now = some runs := by
  induction turns generalizing more addr state now with
  | zero => cases h
  | succ turns ih =>
    obtain ⟨more, rfl⟩ : ∃ n, more = n + 1 := ⟨more - 1, by omega⟩
    rw [blockLoop] at h ⊢
    split at h
    · rw [if_pos ‹_›]
      dsimp only at h ⊢
      split at h
      · exact h
      · exact ih h (by omega)
    · rw [if_neg ‹_›]
      exact h

/-- `base & ~(pageSize - 1)` -/
theorem start_toNat (page : PageSize) (base : UInt64) :
    (base &&& ~~~(page.value - 1)).toNat = base.toNat / 2 ^ page.shift * 2 ^ page.shift := by
  have hpos := Nat.two_pow_pos page.shift
  have hlt : 2 ^ page.shift < 2 ^ 64 :=
    Nat.pow_lt_pow_right (by decide) (by have := page.most; omega)
  have hmask : (page.value - 1).toNat = 2 ^ page.shift - 1 := by
    have hone : (1 : UInt64) ≤ page.value :=
      UInt64.le_iff_toNat_le.2 (by rw [value_toNat]; exact hpos)
    rw [UInt64.toNat_sub_of_le _ _ hone, value_toNat]
    rfl
  rw [UInt64.toNat_and, UInt64.toNat_not, hmask]
  refine Nat.eq_of_testBit_eq fun i => ?_
  rw [Nat.testBit_and, Nat.testBit_mul_two_pow, Nat.testBit_div_two_pow,
    show UInt64.size - 1 - (2 ^ page.shift - 1) = 2 ^ 64 - (2 ^ page.shift - 1 + 1) by
      rw [UInt64.size]; omega,
    Nat.testBit_two_pow_sub_succ (by omega), Nat.testBit_two_pow_sub_one]
  by_cases hi : i < page.shift
  · simp [hi, Nat.not_le.2 hi]
  · rw [Nat.sub_add_cancel (Nat.le_of_not_lt hi)]
    by_cases h64 : i < 64
    · simp [hi, h64, Nat.le_of_not_lt hi]
    · have hzero : base.toNat.testBit i = false :=
        Nat.testBit_lt_two_pow (Nat.lt_of_lt_of_le base.toNat_lt
          (Nat.pow_le_pow_right (by decide) (Nat.le_of_not_lt h64)))
      simp [hzero]

/-! ### Exact runs -/

theorem residentRuns_of_over {m : Pagemap} {page : PageSize} {base stop : UInt64}
    {runs : List (UInt64 × UInt64)}
    (h : RunsOver base.toNat stop.toNat (2 ^ page.shift)
      (base.toNat / 2 ^ page.shift * 2 ^ page.shift)
      (fun a => base.toNat / 2 ^ page.shift * 2 ^ page.shift ≤ a ∧
        worth m (a / 2 ^ page.shift) = true) (runs.map natRun)) :
    ResidentRuns m page base stop runs := by
  have hbounds := fun run hrun => h.bounds (natRun run) (List.mem_map_of_mem hrun)
  refine ⟨?_, fun run hrun => UInt64.lt_iff_toNat_lt.2 (hbounds run hrun).2.2.1, fun run hrun => ?_,
    fun a => ?_⟩
  · exact (List.pairwise_map.1 h.sorted).imp fun hle => UInt64.le_iff_toNat_le.2 hle
  · exact ⟨UInt64.le_iff_toNat_le.2 (hbounds run hrun).1,
      UInt64.le_iff_toNat_le.2 (hbounds run hrun).2.2.2⟩
  · have hcovers := h.covers a.toNat
    rw [Resident, ← pageWorth_iff, UInt64.le_iff_toNat_le, UInt64.lt_iff_toNat_lt]
    constructor
    · rintro ⟨run, hrun, hstart, hend⟩
      rw [UInt64.le_iff_toNat_le] at hstart
      rw [UInt64.lt_iff_toNat_lt] at hend
      obtain ⟨hbase, -, -, hstop⟩ := hbounds run hrun
      have hbase : base.toNat ≤ a.toNat := Nat.le_trans hbase hstart
      have hstop : a.toNat < stop.toNat := Nat.lt_of_lt_of_le hend hstop
      exact ⟨hbase, hstop, ((hcovers hbase hstop).1
        ⟨natRun run, List.mem_map_of_mem hrun, hstart, hend⟩).2⟩
    · rintro ⟨hbase, hstop, hworth⟩
      obtain ⟨run, hrun, hstart, hend⟩ := (hcovers hbase hstop).2
        ⟨Nat.le_trans (Nat.div_mul_le_self _ _) hbase, hworth⟩
      obtain ⟨run, hmem, rfl⟩ := List.mem_map.1 hrun
      exact ⟨run, hmem, UInt64.le_iff_toNat_le.2 hstart, UInt64.lt_iff_toNat_lt.2 hend⟩

/-- The loop returns: the exact runs, or, where a read fails, the whole range. -/
theorem residentRuns_of_below (m : Pagemap) (page : PageSize) {win : ℕ} (hwin : 0 < win)
    {base size : UInt64} (hsize : size ≠ 0)
    (hbelow : base.toNat + size.toNat + 2 ^ page.shift ≤ 2 ^ 64) :
    ∃ runs, (∃ enough, ∀ turns, enough ≤ turns →
        residentRanges turns (some page) win (some m) base size = some runs) ∧
      ((∃ t, m.reads t = 0) ∧ runs = [(base, base + size)] ∨
        ResidentRuns m page base (base + size) runs) := by
  have hpos := Nat.two_pow_pos page.shift
  have hstop : (base + size).toNat = base.toNat + size.toNat := by
    rw [UInt64.toNat_add, Nat.mod_eq_of_lt (by omega)]
  have hstart := start_toNat page base
  let enough := (base + size).toNat - (base &&& ~~~(page.value - 1)).toNat + 1
  obtain ⟨runs, hruns, hends⟩ := @blockLoop_eq m page base (base + size)
    (base &&& ~~~(page.value - 1)) (none, []) win enough 0 [(base, base + size)] hwin
    (by omega) (by rw [hstart]; exact Nat.dvd_mul_left _ _) (Nat.lt_succ_self _)
  refine ⟨runs, ⟨enough, fun turns hturns => ?_⟩,
    hends.imp_right fun hends => residentRuns_of_over ?_⟩
  · rw [residentRanges]
    simp only [if_neg hsize]
    exact blockLoop_mono hruns hturns
  · rw [hends, hstart]
    exact (residentScan_over hpos (Nat.dvd_mul_left _ _)).1

/-- Two pages, of which the second is resident, in blocks of one entry that take two reads each. -/
theorem residentRuns_of_below_two_pages :
    let m : Pagemap := ⟨fun i => if i = 15 then 0x80 else 0, fun _ => 5⟩
    ∃ runs, (∃ enough, ∀ turns, enough ≤ turns →
        residentRanges turns (some ⟨12, by decide, by decide⟩) 1 (some m) 0x10 0x1800 = some runs) ∧
      ((∃ t, m.reads t = 0) ∧ runs = [(0x10, 0x10 + 0x1800)] ∨
        ResidentRuns m ⟨12, by decide, by decide⟩ 0x10 (0x10 + 0x1800) runs) :=
  residentRuns_of_below _ _ (by decide) (by decide) (by decide)

theorem blockLoop_stuck {m : Pagemap} {page : PageSize} {win now : ℕ}
    {whole : List (UInt64 × UInt64)} {base stop : UInt64} {state : Runs}
    (hstop : 2 ^ 64 < stop.toNat + 2 ^ page.shift) (turns : ℕ) :
    blockLoop m page.value win whole base stop turns 0 state now = none := by
  induction turns generalizing state now with
  | zero => rfl
  | succ turns ih =>
    have hlt := stop.toNat_lt
    have hsmall : 2 ^ page.shift < 2 ^ 63 := Nat.pow_lt_pow_right (by decide) page.most
    have hleft : ((stop - 0 + page.value - 1) / page.value).toNat = 0 := by
      rw [UInt64.toNat_div, UInt64.toNat_sub, UInt64.toNat_add, UInt64.toNat_sub, value_toNat]
      refine Nat.div_eq_of_lt ?_
      have hzero : (0 : UInt64).toNat = 0 := rfl
      have hone : (1 : UInt64).toNat = 1 := rfl
      rw [hzero, hone]
      omega
    rw [blockLoop, if_pos (UInt64.lt_iff_toNat_lt.2 (by change 0 < stop.toNat; omega))]
    simp only [hleft, Nat.min_zero, Nat.zero_mul]
    rw [readBlock]
    have hnext : (0 : UInt64) + UInt64.ofNat 0 * page.value = 0 := by simp
    rw [hnext]
    exact ih

/-- Pages of 4096 bytes, and a page table that is read as asked for. -/
def page4096 : PageSize := ⟨12, by decide, by decide⟩

def noPages : Pagemap := ⟨fun _ => 0, fun _ => 32768⟩

theorem residentRanges_last_page (turns : ℕ) :
    residentRanges turns (some page4096) 4096 (some noPages) 0xfffffffffffff000 0xfff = none := by
  have hstart : (0xfffffffffffff000 : UInt64) &&& ~~~(page4096.value - 1) = 0xfffffffffffff000 := by
    decide
  rw [residentRanges]
  simp only [if_neg (show ¬(0xfff : UInt64) = 0 by decide), hstart]
  cases turns with
  | zero => rfl
  | succ turns =>
    rw [blockLoop, if_pos (by decide)]
    have hleft : min 4096 (((0xfffffffffffff000 + 0xfff : UInt64) - 0xfffffffffffff000 +
      page4096.value - 1) / page4096.value).toNat = 1 := by decide
    simp only [hleft]
    rcases readBlock_eq noPages ((0xfffffffffffff000 : UInt64).toNat / page4096.value.toNat * 8) 0
      (Nat.le_refl (1 * 8)) with ⟨-, t, hfails⟩ | ⟨now', hread⟩
    · exact absurd hfails (by simp [noPages])
    · rw [hread]
      exact blockLoop_stuck (by decide) turns

/-- Of an empty range an empty run is returned, and of a range on the last page of all none is
returned, whatever the page table holds. -/
theorem not_residentRuns_everywhere :
    (¬∃ runs, (∃ enough, ∀ turns, enough ≤ turns →
        residentRanges turns (some page4096) 4096 (some noPages) 0x1000 0 = some runs) ∧
      ResidentRuns noPages page4096 0x1000 (0x1000 + 0) runs) ∧
    ¬∃ runs, (∃ enough, ∀ turns, enough ≤ turns →
        residentRanges turns (some page4096) 4096 (some noPages) 0xfffffffffffff000 0xfff =
          some runs) ∧
      ResidentRuns noPages page4096 0xfffffffffffff000 (0xfffffffffffff000 + 0xfff) runs := by
  constructor
  · rintro ⟨runs, ⟨enough, hruns⟩, hexact⟩
    have hwhole := hruns enough (Nat.le_refl _)
    rw [residentRanges, if_pos rfl, Option.some.injEq] at hwhole
    have hempty := hexact.nonempty (0x1000, 0x1000 + 0) (hwhole ▸ List.mem_singleton.2 rfl)
    exact absurd hempty (by decide)
  · rintro ⟨runs, ⟨enough, hruns⟩, -⟩
    have hsome := hruns enough (Nat.le_refl _)
    rw [residentRanges_last_page] at hsome
    cases hsome

end CheatEngine.ResidentBlocks
