import CheatEngineLinux.Scanner.PointerFile
import CheatEngineLinux.Scanner.PointerMapBuild
import CheatEngineLinux.Scanner.PointerSearch

/-!
# Scanning a map that was saved and loaded again

Loading sorts the entries anew, so entries with one target may come in another order; whether the
memory was cut while the map was built is not saved.

* `scan_limits_iff` — **PROVED**: a scan reaches no limit if and only if its search has few enough
  entries to examine and few enough paths to record;
* `scan_renumbered` — **PROVED**: both numbers, and the paths but for their order, are those of any
  map with the same entries and modules;
* `reloaded_scan` — **PROVED**: what a loaded map's scan has of the saved map's.
-/

namespace CheatEngine

open ChainSearch

section Steps

variable (map : PointerMap) (cfg : PointerScanConfig)

/-- The entries a stack still has to examine in a pass. -/
def pendingSteps (pass : ℕ) : List Frame → List UInt64 → ℕ
  | [], _ => 0
  | f :: below, ancestors =>
    steps (outLinks map cfg) (slotOf map) (pass - (below.length + 1)) ancestors
        (List.range' f.next (f.finish - f.next))
      + pendingSteps pass below ancestors.tail

def stepsOf (pass : ℕ) (s : Walk) : ℕ := pendingSteps map cfg pass s.stack s.ancestors

/-- The entries pass `n + 1` examines. -/
def levelSteps (n : ℕ) : ℕ :=
  steps (outLinks map cfg) (slotOf map) n [cfg.targetAddress] (outLinks map cfg cfg.targetAddress)

/-- The entries examined by `k` passes from `n + 1` on. -/
def stepsFrom : (k n : ℕ) → ℕ
  | 0, _ => 0
  | k + 1, n => levelSteps map cfg n +
    if (levelVisits map cfg n).any Visit.fresh then stepsFrom k (n + 1) else 0

/-- The paths `k` passes from `n + 1` on record. -/
def pathsFrom (k n : ℕ) : List PointerPath :=
  (visitsFrom map cfg k n).filterMap (visitPath map cfg)

end Steps

section Limits

variable {map : PointerMap} {cfg : PointerScanConfig}

theorem range'_cons {f : Frame} (h : f.next < f.finish) :
    List.range' f.next (f.finish - f.next)
      = f.next :: List.range' (f.next + 1) (f.finish - (f.next + 1)) := by
  rw [show f.finish - f.next = (f.finish - (f.next + 1)) + 1 by omega, List.range'_succ]

theorem stepsOf_pop {pass : ℕ} {s : Walk} {frame : Frame} {below : List Frame}
    (hs : s.stack = frame :: below) (hdone : frame.next = frame.finish) :
    stepsOf map cfg pass (s.pop below) = stepsOf map cfg pass s := by
  have hnone : List.range' frame.next (frame.finish - frame.next) = [] := by simp [hdone]
  rw [stepsOf, stepsOf, hs, pendingSteps, hnone, steps_nil, Nat.zero_add, Walk.pop]
  cases below with
  | nil => rfl
  | cons b rest => rfl

theorem examine_steps {pass : ℕ} {s : Walk} {frame : Frame} {below : List Frame}
    (hs : s.stack = frame :: below) (hlt : frame.next < frame.finish)
    (hdepth : below.length + 1 ≤ pass)
    (hgo : (examine map cfg pass s frame below).stop = false) :
    stepsOf map cfg pass s = 1 + stepsOf map cfg pass (examine map cfg pass s frame below) := by
  rw [stepsOf, hs, pendingSteps, range'_cons hlt]
  by_cases hpass : below.length + 1 = pass
  · have hrest : stepsOf map cfg pass (examine map cfg pass s frame below) =
        pendingSteps map cfg pass ({ frame with next := frame.next + 1 } :: below) s.ancestors := by
      rw [examine] at hgo ⊢
      simp only [hpass, if_true] at hgo ⊢
      split
      · rename_i hnone
        simp only [hnone] at hgo
        cases hgo
      · rfl
    rw [hrest, show pass - (below.length + 1) = 0 by omega, steps_zero_cons, pendingSteps,
      show pass - (below.length + 1) = 0 by omega, Nat.add_assoc]
  · obtain ⟨n, hn⟩ : ∃ n, pass - (below.length + 1) = n + 1 :=
      ⟨pass - (below.length + 1) - 1, by omega⟩
    rw [hn, steps_succ_cons]
    by_cases hfresh : slotOf map frame.next ∈ s.ancestors
    · have hrest : stepsOf map cfg pass (examine map cfg pass s frame below) =
          pendingSteps map cfg pass ({ frame with next := frame.next + 1 } :: below)
            s.ancestors := by
        rw [slotOf] at hfresh
        simp [examine, hpass, hfresh, stepsOf]
      rw [hrest, if_pos hfresh, pendingSteps, hn, Nat.add_zero, Nat.add_assoc]
    · have hrest : stepsOf map cfg pass (examine map cfg pass s frame below) =
          steps (outLinks map cfg) (slotOf map) n (slotOf map frame.next :: s.ancestors)
              (outLinks map cfg (slotOf map frame.next))
            + pendingSteps map cfg pass ({ frame with next := frame.next + 1 } :: below)
              s.ancestors := by
        have hnot := hfresh
        rw [slotOf] at hnot
        simp only [examine, hpass, if_false, hnot, stepsOf, List.contains_eq_mem,
          decide_false, Bool.not_false, if_true, pendingSteps, List.tail_cons, List.length_cons]
        rw [show pass - (below.length + 1 + 1) = n by omega]
        rfl
      rw [hrest, if_neg hfresh, pendingSteps, hn, Nat.add_assoc, Nat.add_assoc]

theorem examine_full {pass : ℕ} {s : Walk} {frame : Frame} {below : List Frame}
    (hs : s.stack = frame :: below) (hlt : frame.next < frame.finish) (hstop : s.stop = false)
    (hfull : (examine map cfg pass s frame below).stop = true) :
    cfg.maxResults < s.results.length +
      ((owed map cfg pass s).filterMap (visitPath map cfg)).length := by
  by_cases hpass : below.length + 1 = pass
  · rw [owed_step hs hlt, show pass - (below.length + 1) = 0 by omega, headVisits_zero]
    rw [examine] at hfull
    simp only [hpass, if_true] at hfull
    split at hfull
    · rename_i hnone
      rw [record] at hnone
      split at hnone
      · cases hnone
      · rename_i path hpath
        split at hnone
        · rename_i hcap
          have hvisit : visitPath map cfg ⟨frame.next,
              toOffset (frame.address - (map.entry frame.next).pointsTo) :: s.chain,
              !s.ancestors.contains (map.entry frame.next).locatedAt⟩ = some path := hpath
          rw [List.singleton_append, List.filterMap_cons_some hvisit, List.length_cons]
          omega
        · cases hnone
    · simp only [hstop] at hfull
      cases hfull
  · rw [examine] at hfull
    simp only [hpass, if_false] at hfull
    split at hfull
    · simp only [hstop] at hfull
      cases hfull
    · simp only [hstop] at hfull
      cases hfull

theorem examine_results_le {pass : ℕ} {s : Walk} {frame : Frame} {below : List Frame}
    (hle : s.results.length ≤ cfg.maxResults) :
    (examine map cfg pass s frame below).results.length ≤ cfg.maxResults := by
  rw [examine]
  dsimp only
  split
  · split
    · exact hle
    · rename_i results hrecord
      rw [record] at hrecord
      split at hrecord
      · rw [← Option.some.inj hrecord]
        exact hle
      · split at hrecord
        · cases hrecord
        · rw [← Option.some.inj hrecord, List.length_append, List.length_singleton]
          omega
  · split <;> exact hle

theorem walk_limits (pass : ℕ) (s : Walk) (hinv : WalkInv pass s) (hstop : s.stop = false)
    (hv : s.visits ≤ cfg.maxVisits) (hr : s.results.length ≤ cfg.maxResults) :
    ((walk map cfg (fun _ => false) pass s).stop = false →
      (walk map cfg (fun _ => false) pass s).visits = s.visits + stepsOf map cfg pass s ∧
      (walk map cfg (fun _ => false) pass s).visits ≤ cfg.maxVisits ∧
      (walk map cfg (fun _ => false) pass s).results.length ≤ cfg.maxResults) ∧
    ((walk map cfg (fun _ => false) pass s).stop = true →
      cfg.maxVisits < s.visits + stepsOf map cfg pass s ∨
      cfg.maxResults < s.results.length +
        ((owed map cfg pass s).filterMap (visitPath map cfg)).length) := by
  induction s using walk.induct map cfg (fun _ => false) pass with
  | case1 s hs =>
    rw [walk_nil map cfg _ hs]
    refine ⟨fun _ => ⟨?_, hv, hr⟩, fun h => absurd h (by rw [hstop]; decide)⟩
    rw [stepsOf, hs]
    rfl
  | case2 s frame below hs hdone ih =>
    rw [walk_cons map cfg _ hs, if_pos hdone, owed_pop hs hdone, ← stepsOf_pop hs hdone]
    exact ih (hinv.pop hs) hstop hv hr
  | case3 s frame below hs hdone hlimit =>
    have hlt : frame.next < frame.finish :=
      lt_of_le_of_ne (hinv.bounds frame (by rw [hs]; exact List.mem_cons_self)) hdone
    rw [walk_cons map cfg _ hs, if_neg hdone, if_pos hlimit]
    refine ⟨fun h => (by cases h), fun _ => Or.inl ?_⟩
    -- there is an entry left to examine
    have hpos : 0 < stepsOf map cfg pass s := by
      rw [stepsOf, hs, pendingSteps, range'_cons hlt]
      cases pass - (below.length + 1) with
      | zero =>
        rw [steps_zero_cons]
        omega
      | succ n =>
        rw [steps_succ_cons]
        omega
    omega
  | case4 s frame below hs hdone hlimit hc =>
    rw [Bool.and_false] at hc
    cases hc
  | case5 s frame below hs hdone hlimit hc hex =>
    have hlt : frame.next < frame.finish :=
      lt_of_le_of_ne (hinv.bounds frame (by rw [hs]; exact List.mem_cons_self)) hdone
    rw [walk_cons map cfg _ hs, if_neg hdone, if_neg hlimit, if_neg hc, if_pos hex]
    refine ⟨fun h => absurd h (by rw [hex]; decide), fun _ => Or.inr ?_⟩
    exact examine_full (s := s.counted) hs hlt hstop hex
  | case6 s frame below hs hdone hlimit hc hex ih =>
    have hlt : frame.next < frame.finish :=
      lt_of_le_of_ne (hinv.bounds frame (by rw [hs]; exact List.mem_cons_self)) hdone
    have hdepth : below.length + 1 ≤ pass := by
      have := hinv.depth
      rw [hs] at this
      simpa using this
    have hgo : (examine map cfg pass s.counted frame below).stop = false := by simpa using hex
    rw [walk_cons map cfg _ hs, if_neg hdone, if_neg hlimit, if_neg hc, if_neg hex]
    rcases @examine_cases map cfg pass s.counted frame below hs hlt ⟨hinv.depth, hinv.bounds⟩ hstop
      with ⟨h1, -, -⟩ | ⟨-, -, -, hinv', done, howed, hresults, -⟩
    · rw [hgo] at h1
      cases h1
    · have hsteps : stepsOf map cfg pass s
          = 1 + stepsOf map cfg pass (examine map cfg pass s.counted frame below) :=
        examine_steps (s := s.counted) hs hlt hdepth hgo
      have hvisits : (examine map cfg pass s.counted frame below).visits = s.visits + 1 :=
        examine_visits ..
      have hpaths : s.results.length + ((owed map cfg pass s).filterMap (visitPath map cfg)).length
          = (examine map cfg pass s.counted frame below).results.length
            + ((owed map cfg pass (examine map cfg pass s.counted frame below)).filterMap
              (visitPath map cfg)).length := by
        have howed' : owed map cfg pass s = done
          ++ owed map cfg pass (examine map cfg pass s.counted frame below) := howed
        have hresults' : (examine map cfg pass s.counted frame below).results
          = s.results ++ done.filterMap (visitPath map cfg) := hresults
        rw [howed', hresults', List.filterMap_append, List.length_append, List.length_append,
          Nat.add_assoc]
      obtain ⟨hdone', hfull⟩ := ih hinv' hgo (by omega) (examine_results_le (s := s.counted) hr)
      refine ⟨fun h => ?_, fun h => ?_⟩
      · obtain ⟨h1, h2, h3⟩ := hdone' h
        exact ⟨by omega, h2, h3⟩
      · rcases hfull h with h1 | h1
        · exact Or.inl (by omega)
        · exact Or.inr (by omega)

theorem startPass_steps (n : ℕ) (s : Walk) :
    stepsOf map cfg (n + 1) (startPass map cfg s) = levelSteps map cfg n := by
  simp [stepsOf, startPass, pendingSteps, levelSteps, outLinks]

theorem pathsFrom_succ (k n : ℕ) : pathsFrom map cfg (k + 1) n =
    (levelVisits map cfg n).filterMap (visitPath map cfg) ++ pathsFrom map cfg k (n + 1) := by
  rw [pathsFrom, visitsFrom_succ, List.filterMap_append, pathsFrom]

theorem passes_limits (k : ℕ) : ∀ (n : ℕ) (s : Walk), s.stop = false → s.limitResults = false →
    s.limitWork = false → s.visits ≤ cfg.maxVisits → s.results.length ≤ cfg.maxResults →
    ((passes map cfg (fun _ => false) k (n + 1) s).limitResults = false ∧
        (passes map cfg (fun _ => false) k (n + 1) s).limitWork = false ↔
      s.visits + stepsFrom map cfg k n ≤ cfg.maxVisits ∧
        s.results.length + (pathsFrom map cfg k n).length ≤ cfg.maxResults) := by
  induction k with
  | zero =>
    intro n s _ hlr hlw hv hr
    exact iff_of_true ⟨hlr, hlw⟩ ⟨hv, hr⟩
  | succ k ih =>
    intro n s hs hlr hlw hv hr
    rw [passes, if_neg (by rw [hs]; decide), if_neg (by decide)]
    have hwalk := @walk_spec map cfg (fun _ => false) (n + 1)
      (startPass map cfg { s with polls := s.polls + 1 }) (startPass_inv n _) hs
    obtain ⟨hgo, hfull⟩ := @walk_limits map cfg (n + 1)
      (startPass map cfg { s with polls := s.polls + 1 }) (startPass_inv n _) hs hv hr
    rw [startPass_owed] at hwalk hfull
    rw [startPass_steps] at hgo hfull
    dsimp only
    set s' := walk map cfg (fun _ => false) (n + 1)
      (startPass map cfg { s with polls := s.polls + 1 })
    rw [stepsFrom, pathsFrom_succ, List.length_append]
    by_cases hstop : s'.stop = true
    · have hend : (if s'.deeper then passes map cfg (fun _ => false) k (n + 1 + 1) s' else s') = s' := by
        split
        · cases k with
          | zero => rfl
          | succ k => rw [passes, if_pos hstop]
        · rfl
      rw [hend]
      refine iff_of_false ?_ ?_
      · rintro ⟨h1, h2⟩
        rcases hwalk.stops hstop with h | h | ⟨_, h⟩
        · rw [h1] at h
          cases h
        · rw [h2] at h
          cases h
        · cases h
      · rintro ⟨h1, h2⟩
        have hfull' : cfg.maxVisits < s.visits + levelSteps map cfg n ∨
            cfg.maxResults < s.results.length +
              ((levelVisits map cfg n).filterMap (visitPath map cfg)).length := hfull hstop
        omega
    · have hns : s'.stop = false := by simpa using hstop
      obtain ⟨hresults, hdeeper, hlr', hlw'⟩ := hwalk.whole hns
      obtain ⟨hvisits, hv', hr'⟩ := hgo hns
      have hdeeper' : s'.deeper = (levelVisits map cfg n).any Visit.fresh := hdeeper
      have hvisits' : s'.visits = s.visits + levelSteps map cfg n := hvisits
      have hlength : s'.results.length = s.results.length +
          ((levelVisits map cfg n).filterMap (visitPath map cfg)).length := by
        rw [hresults, List.length_append]
        rfl
      by_cases hd : s'.deeper = true
      · rw [if_pos hd, if_pos (hdeeper' ▸ hd), ih (n + 1) s' hns (hlr'.trans hlr)
          (hlw'.trans hlw) hv' hr', hvisits', hlength, Nat.add_assoc, Nat.add_assoc]
      · have hnone : (levelVisits map cfg n).any Visit.fresh = false := by
          rw [← hdeeper']
          simpa using hd
        have hrest : pathsFrom map cfg k (n + 1) = [] := by
          rw [pathsFrom, visitsFrom_eq_nil hnone, List.filterMap_nil]
        rw [if_neg hd, if_neg (by rw [hnone]; decide), hrest, List.length_nil]
        exact iff_of_true ⟨hlr'.trans hlr, hlw'.trans hlw⟩ ⟨by omega, by omega⟩

theorem scan_limits_iff (hrun : cfg.runnable = true) :
    ((scanWithMap map cfg fun _ => false).limitResults = false ∧
        (scanWithMap map cfg fun _ => false).limitWork = false) ↔
      stepsFrom map cfg cfg.maxDepth.toNat 0 ≤ cfg.maxVisits ∧
        (pathsFrom map cfg cfg.maxDepth.toNat 0).length ≤ cfg.maxResults := by
  have h := @passes_limits map cfg cfg.maxDepth.toNat 0 initialWalk rfl rfl rfl (Nat.zero_le _)
    (Nat.zero_le _)
  rw [scanWithMap, hrun]
  simpa [initialWalk] using h

end Limits

/-! ### Maps with the same entries -/

section SameEntries

variable {map map' : PointerMap} {cfg : PointerScanConfig} {σ : ℕ → ℕ}

/-- The same entries under other numbers, and the same modules. -/
structure Renumbered (map map' : PointerMap) (σ : ℕ → ℕ) : Prop where
  entry : ∀ i, map'.entry (σ i) = map.entry i
  perm : ((List.range map.byTarget.length).map σ).Perm (List.range map'.byTarget.length)
  modules : map'.modules = map.modules

theorem exists_renumbered (h : map.byTarget.Perm map'.byTarget) (hm : map'.modules = map.modules) :
    ∃ σ, Renumbered map map' σ := by
  obtain ⟨σ, hget, hperm⟩ := exists_renumbering h default
  exact ⟨σ, hget, hperm, hm⟩

theorem Renumbered.linksTo (h : Renumbered map map' σ) (address : UInt64) :
    (linksTo map' cfg address).Perm ((linksTo map cfg address).map σ) := by
  rw [CheatEngine.linksTo, CheatEngine.linksTo]
  refine (h.perm.symm.filter _).trans (List.Perm.of_eq ?_)
  rw [List.filter_map]
  refine congrArg (List.map σ) (List.filter_congr fun i _ => ?_)
  rw [Function.comp_apply, h.entry]

theorem Renumbered.renumbers (h : Renumbered map map' σ) (h0 : 0 ≤ cfg.maxOffset) :
    Renumbers (outLinks map cfg) (slotOf map) (outLinks map' cfg) (slotOf map') σ := by
  rw [outLinks_eq_linksTo map cfg h0, outLinks_eq_linksTo map' cfg h0]
  exact ⟨fun i => congrArg Entry.locatedAt (h.entry i), h.linksTo⟩

theorem Renumbered.levelChains (h : Renumbered map map' σ) (h0 : 0 ≤ cfg.maxOffset) (n : ℕ) :
    (levelChains map' cfg n).Perm ((levelChains map cfg n).map (List.map σ)) :=
  chainsOn_renumber (h.renumbers h0) n _ ((h.renumbers h0).out _)

theorem Renumbered.linkOffsets (h : Renumbered map map' σ) (c : List ℕ) (address : UInt64) :
    linkOffsets map' address (c.map σ) = linkOffsets map address c := by
  induction c generalizing address with
  | nil => rfl
  | cons i c ih =>
    rw [List.map_cons, CheatEngine.linkOffsets, CheatEngine.linkOffsets, h.entry, slotOf, h.entry,
      ih]
    rfl

theorem Renumbered.visitPath (h : Renumbered map map' σ) {c : List ℕ} (hc : c ≠ []) :
    visitPath map' cfg (visitOf map' cfg.targetAddress [] [cfg.targetAddress] (c.map σ)) =
      visitPath map cfg (visitOf map cfg.targetAddress [] [cfg.targetAddress] c) := by
  have hlast : (c.map σ).getLastD 0 = σ (c.getLastD 0) := by
    rw [List.getLastD_eq_getLast?, List.getLastD_eq_getLast?, List.getLast?_map,
      List.getLast?_eq_some_getLast hc]
    rfl
  rw [CheatEngine.visitPath, CheatEngine.visitPath, visitOf, visitOf, h.modules]
  dsimp only
  rw [hlast, h.entry, h.linkOffsets]

theorem Renumbered.levelPaths (h : Renumbered map map' σ) (h0 : 0 ≤ cfg.maxOffset) (n : ℕ) :
    ((levelVisits map' cfg n).filterMap (CheatEngine.visitPath map' cfg)).Perm
      ((levelVisits map cfg n).filterMap (CheatEngine.visitPath map cfg)) := by
  rw [levelVisits, levelVisits, List.filterMap_map, List.filterMap_map]
  refine ((h.levelChains h0 n).filterMap _).trans (List.Perm.of_eq ?_)
  rw [List.filterMap_map]
  exact List.filterMap_congr fun c hc => h.visitPath (ne_nil_of_mem_chainsOn hc)

theorem Renumbered.pathsFrom (h : Renumbered map map' σ) (h0 : 0 ≤ cfg.maxOffset) (k n : ℕ) :
    (pathsFrom map' cfg k n).Perm (pathsFrom map cfg k n) := by
  rw [CheatEngine.pathsFrom, CheatEngine.pathsFrom, visitsFrom, visitsFrom,
    List.filterMap_flatMap, List.filterMap_flatMap]
  exact List.Perm.flatMap_left _ fun d _ => h.levelPaths h0 (n + d)

theorem Renumbered.fresh (h : Renumbered map map' σ) (h0 : 0 ≤ cfg.maxOffset) (n : ℕ) :
    (levelVisits map' cfg n).any Visit.fresh = (levelVisits map cfg n).any Visit.fresh := by
  rw [levelVisits_fresh, levelVisits_fresh, (h.levelChains h0 n).any_eq, List.any_map]
  exact congrArg (List.any _) (funext fun c => mayGoOn_renumber (h.renumbers h0) _ c)

theorem Renumbered.stepsFrom (h : Renumbered map map' σ) (h0 : 0 ≤ cfg.maxOffset) (k : ℕ) :
    ∀ n, stepsFrom map' cfg k n = stepsFrom map cfg k n := by
  induction k with
  | zero => exact fun _ => rfl
  | succ k ih =>
    intro n
    rw [CheatEngine.stepsFrom, CheatEngine.stepsFrom, h.fresh h0, ih, levelSteps, levelSteps,
      steps_renumber (h.renumbers h0) n _ ((h.renumbers h0).out _)]

theorem scan_renumbered (hp : map.byTarget.Perm map'.byTarget) (hm : map'.modules = map.modules)
    (cfg : PointerScanConfig) :
    (((scanWithMap map' cfg fun _ => false).limitResults = false ∧
        (scanWithMap map' cfg fun _ => false).limitWork = false) ↔
      ((scanWithMap map cfg fun _ => false).limitResults = false ∧
        (scanWithMap map cfg fun _ => false).limitWork = false)) ∧
    ((scanWithMap map cfg fun _ => false).limitResults = false →
      (scanWithMap map cfg fun _ => false).limitWork = false →
      (scanWithMap map' cfg fun _ => false).paths.Perm (scanWithMap map cfg fun _ => false).paths) := by
  by_cases hrun : cfg.runnable = true
  · obtain ⟨σ, h⟩ := exists_renumbered hp hm
    have h0 := (runnable_iff.mp hrun).2.2.2
    have hlimits : ((scanWithMap map' cfg fun _ => false).limitResults = false ∧
        (scanWithMap map' cfg fun _ => false).limitWork = false) ↔
        ((scanWithMap map cfg fun _ => false).limitResults = false ∧
          (scanWithMap map cfg fun _ => false).limitWork = false) := by
      rw [scan_limits_iff hrun, scan_limits_iff hrun, h.stepsFrom h0, (h.pathsFrom h0 _ _).length_eq]
    refine ⟨hlimits, fun hr hw => ?_⟩
    obtain ⟨hr', hw'⟩ := hlimits.mpr ⟨hr, hw⟩
    rw [scan_paths hrun hr hw, scan_paths hrun hr' hw']
    exact h.pathsFrom h0 _ _
  · have hrun' : cfg.runnable = false := by simpa using hrun
    have hscan : ∀ m : PointerMap, scanWithMap m cfg (fun _ => false) = ⟨[], false, false, false⟩ :=
      fun m => by rw [scanWithMap, hrun']; rfl
    rw [hscan, hscan]
    exact ⟨Iff.rfl, fun _ _ => List.Perm.nil⟩

end SameEntries

/-! ### Entries with different targets -/

section SameOrder

variable {map map' : PointerMap} {cfg : PointerScanConfig}

/-- Without ties there is one order of the entries. -/
theorem byTarget_eq (hp : map'.byTarget.Perm map.byTarget)
    (hd : (map.byTarget.map Entry.pointsTo).Nodup) : map'.byTarget = map.byTarget := by
  refine hp.eq_of_pairwise (fun a b ha hb hab hba => ?_) map'.sorted map.sorted
  exact List.inj_on_of_nodup_map hd (hp.mem_iff.mp ha) hb
    (UInt64.toNat_inj.mp (Nat.le_antisymm hab hba))

theorem examine_congr (hb : map'.byTarget = map.byTarget) (hm : map'.modules = map.modules)
    (pass : ℕ) (s : Walk) (frame : Frame) (below : List Frame) :
    examine map' cfg pass s frame below = examine map cfg pass s frame below := by
  have hentry : map'.entry = map.entry := by
    funext i
    rw [PointerMap.entry, PointerMap.entry, hb]
  have hwindow : window map' cfg = window map cfg := by
    funext address
    rw [window, window, hb]
  rw [examine, examine, hentry, hwindow, hm]

theorem walk_congr (hb : map'.byTarget = map.byTarget) (hm : map'.modules = map.modules)
    (cancelled : ℕ → Bool) (pass : ℕ) (s : Walk) :
    walk map' cfg cancelled pass s = walk map cfg cancelled pass s := by
  induction s using walk.induct map cfg cancelled pass with
  | case1 s hs => rw [walk_nil _ _ _ hs, walk_nil _ _ _ hs]
  | case2 s frame below hs hdone ih =>
    rw [walk_cons _ _ _ hs, walk_cons _ _ _ hs, if_pos hdone, if_pos hdone, ih]
  | case3 s frame below hs hdone hlimit =>
    rw [walk_cons _ _ _ hs, walk_cons _ _ _ hs, if_neg hdone, if_neg hdone, if_pos hlimit,
      if_pos hlimit]
  | case4 s frame below hs hdone hlimit hc =>
    rw [walk_cons _ _ _ hs, walk_cons _ _ _ hs, if_neg hdone, if_neg hdone, if_neg hlimit,
      if_neg hlimit, if_pos hc, if_pos hc]
  | case5 s frame below hs hdone hlimit hc hex =>
    rw [walk_cons _ _ _ hs, walk_cons _ _ _ hs, if_neg hdone, if_neg hdone, if_neg hlimit,
      if_neg hlimit, if_neg hc, if_neg hc, examine_congr hb hm, if_pos hex, if_pos hex]
  | case6 s frame below hs hdone hlimit hc hex ih =>
    rw [walk_cons _ _ _ hs, walk_cons _ _ _ hs, if_neg hdone, if_neg hdone, if_neg hlimit,
      if_neg hlimit, if_neg hc, if_neg hc, examine_congr hb hm, if_neg hex, if_neg hex, ih]

theorem passes_congr (hb : map'.byTarget = map.byTarget) (hm : map'.modules = map.modules)
    (cancelled : ℕ → Bool) (k : ℕ) : ∀ (pass : ℕ) (s : Walk),
    passes map' cfg cancelled k pass s = passes map cfg cancelled k pass s := by
  induction k with
  | zero => exact fun _ _ => rfl
  | succ k ih =>
    intro pass s
    have hstart : ∀ s, startPass map' cfg s = startPass map cfg s := fun s => by
      simp only [startPass, window, hb]
    rw [passes, passes, hstart, walk_congr hb hm]
    dsimp only
    rw [ih]

theorem scan_congr (hb : map'.byTarget = map.byTarget) (hm : map'.modules = map.modules) :
    (scanWithMap map' cfg fun _ => false).paths = (scanWithMap map cfg fun _ => false).paths ∧
    (scanWithMap map' cfg fun _ => false).limitResults
      = (scanWithMap map cfg fun _ => false).limitResults ∧
    (scanWithMap map' cfg fun _ => false).limitWork
      = (scanWithMap map cfg fun _ => false).limitWork := by
  rw [scanWithMap, scanWithMap]
  split
  · exact ⟨rfl, rfl, rfl⟩
  · rw [passes_congr hb hm]
    exact ⟨rfl, rfl, rfl⟩

end SameOrder

/-! ### Reloaded maps -/

theorem scan_limitMapEntries (map : PointerMap) (cfg : PointerScanConfig) :
    (scanWithMap map cfg fun _ => false).limitMapEntries = (cfg.runnable && map.truncated) := by
  rw [scanWithMap]
  cases cfg.runnable <;> rfl

/-- A map that was saved and loaded again: whether it was cut is not saved, so its scans never
report it. The search reaches a limit or none as before, and without one it finds the same paths.
Where no two entries have one target, everything else is as before. -/
theorem reloaded_scan {m loaded : ModuleWidths} (hm : m.WithinLimits)
    (hload : loaded.LoadedFrom (some m.save)) (cfg : PointerScanConfig) :
    (scanWithMap m.map cfg fun _ => false).limitMapEntries = (cfg.runnable && m.map.truncated) ∧
    (scanWithMap loaded.map cfg fun _ => false).limitMapEntries = false ∧
    (((scanWithMap loaded.map cfg fun _ => false).limitResults = false ∧
        (scanWithMap loaded.map cfg fun _ => false).limitWork = false) ↔
      ((scanWithMap m.map cfg fun _ => false).limitResults = false ∧
        (scanWithMap m.map cfg fun _ => false).limitWork = false)) ∧
    ((scanWithMap m.map cfg fun _ => false).limitResults = false →
      (scanWithMap m.map cfg fun _ => false).limitWork = false →
      (scanWithMap loaded.map cfg fun _ => false).paths.Perm
        (scanWithMap m.map cfg fun _ => false).paths) ∧
    ((m.map.byTarget.map Entry.pointsTo).Nodup →
      (scanWithMap loaded.map cfg fun _ => false).paths
          = (scanWithMap m.map cfg fun _ => false).paths ∧
        (scanWithMap loaded.map cfg fun _ => false).limitResults
          = (scanWithMap m.map cfg fun _ => false).limitResults ∧
        (scanWithMap loaded.map cfg fun _ => false).limitWork
          = (scanWithMap m.map cfg fun _ => false).limitWork) := by
  have hsame := hload.sameAs hm
  obtain ⟨hlimits, hpaths⟩ := scan_renumbered hsame.entries.symm hsame.modules cfg
  refine ⟨scan_limitMapEntries _ _, ?_, hlimits, hpaths, fun hd => ?_⟩
  · rw [scan_limitMapEntries, hload.truncated, Bool.and_false]
  · exact scan_congr (byTarget_eq hsame.entries hd) hsame.modules

def moduleSlot : Entry := ⟨5, 0x1008⟩
def heapSlot : Entry := ⟨5, 0x9000⟩

def tieMap (a b : Entry) : ModuleWidths :=
  ⟨PointerMap.setEntries [a, b] [⟨0x1000, 0x1000, "game"⟩] false (by simp), [true], rfl⟩

/-- A scan for 5 that may record nothing and examine one entry. -/
def tightConfig : PointerScanConfig :=
  { targetAddress := 5, maxDepth := 1, maxOffset := 0, maxResults := 0, maxVisits := 1 }

theorem tieMap_byTarget {a b : Entry} (h : a.pointsTo = b.pointsTo) :
    (tieMap a b).map.byTarget = [a, b] := by
  refine List.mergeSort_of_pairwise
    (List.pairwise_cons.mpr ⟨fun c hc => ?_, List.pairwise_singleton _ _⟩)
  rw [List.mem_singleton.mp hc]
  exact decide_eq_true (congrArg UInt64.toNat h).le

theorem tight_scan {a b : Entry} (ha : a.pointsTo = 5) (hb : b.pointsTo = 5)
    (hwindow : window (tieMap a b).map tightConfig 5 = (0, 2)) :
    ((scanWithMap (tieMap a b).map tightConfig fun _ => false).limitResults,
        (scanWithMap (tieMap a b).map tightConfig fun _ => false).limitWork) =
      if (endpoint (tieMap a b).map.modules tightConfig a.locatedAt).isSome then (true, false)
      else (false, true) := by
  set map := (tieMap a b).map
  have hentry : map.entry 0 = a := by
    rw [PointerMap.entry, tieMap_byTarget (ha.trans hb.symm)]
    rfl
  set t := startPass map tightConfig { initialWalk with polls := 1 } with ht
  have hstack : t.stack = [⟨5, 0, 2⟩] := by
    change [Frame.mk 5 (window map tightConfig 5).1 (window map tightConfig 5).2] = _
    rw [hwindow]
  have hscan : ∀ field : Walk → Bool, field (passes map tightConfig (fun _ => false) 1 1 initialWalk)
      = field (walk map tightConfig (fun _ => false) 1 t) := by
    intro field
    rw [passes, if_neg (by decide), if_neg (by decide)]
    dsimp only [passes]
    split <;> rfl
  have hrun : tightConfig.runnable = true := by decide
  rw [scanWithMap, hrun]
  simp only [Bool.not_true, Bool.false_eq_true, if_false]
  rw [show tightConfig.maxDepth.toNat = 1 from rfl, hscan Walk.limitResults, hscan Walk.limitWork,
    walk_cons _ _ _ hstack, if_neg (by decide),
    if_neg (show ¬ t.visits ≥ tightConfig.maxVisits from Nat.not_succ_le_zero 0),
    if_neg (by simp)]
  have hexamine : examine map tightConfig 1 t.counted ⟨5, 0, 2⟩ [] =
      if (endpoint map.modules tightConfig a.locatedAt).isSome then
        { t.counted with stack := [⟨5, 1, 2⟩], limitResults := true, stop := true }
      else { t.counted with
        stack := [⟨5, 1, 2⟩]
        deeper := t.counted.deeper || !t.counted.ancestors.contains a.locatedAt } := by
    rw [examine]
    simp only [List.length_nil, Nat.zero_add, if_true, hentry, record, pathAt]
    cases endpoint map.modules tightConfig a.locatedAt with
    | none => rfl
    | some base => rfl
  rw [hexamine]
  split
  · rfl
  · rw [if_neg (show ¬ t.counted.stop = true from Bool.false_ne_true),
      @walk_cons map tightConfig _ 1 _ ⟨5, 1, 2⟩ [] rfl, if_neg (by decide),
      if_pos (show t.counted.visits ≥ tightConfig.maxVisits from Nat.le_refl 1)]
    rfl

theorem buildPointerMap_ok {target : PointerTarget} {config : PointerMapConfig} {map : PointerMap}
    (h : buildPointerMap target config = .ok map) :
    map.byTarget.length ≤ config.maxMapEntries ∧ map.modules = target.modules := by
  rw [buildPointerMap] at h
  split at h
  · cases h
  · rw [← Except.ok.inj h]
    refine ⟨?_, rfl⟩
    have hperm := BinarySearch.sortBy_perm (fun e : Entry => e.pointsTo.toNat)
      (scanMemory target config).1
    refine hperm.length_eq.trans_le ?_
    rw [scanMemory_eq, seen, List.length_take, PointerMapConfig.maxEntries]
    omega

theorem cut_map_built : ∃ map, buildPointerMap selfPointerTarget { maxMapEntries := 0 } = .ok map ∧
    map.truncated = true ∧ map.modules = [] := by
  obtain ⟨map, hok, -, -, -, hall⟩ := @buildPointerMap_complete selfPointerTarget
    { maxMapEntries := 0 } selfPointer 4096 (fun _ => none) (by decide) (by decide)
    (fun r hr => by rw [List.mem_singleton.mp hr]; exact ⟨by decide, by decide, by decide⟩)
    (List.pairwise_singleton _ _) (Or.inl rfl)
    (fun r hr _ a hlow hhigh hout => by
      rw [List.mem_singleton.mp hr] at hlow hhigh hout
      exact absurd ⟨hlow, hhigh⟩ (hout _ (List.mem_singleton_self _)))
    (fun r hr _ a n _ _ => rfl)
  obtain ⟨hlen, hmodules⟩ := buildPointerMap_ok hok
  refine ⟨map, hok, ?_, hmodules⟩
  by_contra hnot
  have hmem := hall (by simpa using hnot) ⟨0x10000, 0x10008⟩ ⟨_, List.mem_singleton_self _, rfl, 8,
    .little, rfl, rfl, ⟨1, rfl⟩, by decide, by decide, _, List.mem_singleton_self _, rfl, by decide,
    by decide⟩
  exact Nat.not_succ_le_zero _ ((List.length_pos_of_mem hmem).trans_le hlen)

/-- A map that was cut at its first entry scans as cut, and the map loaded from its file does not;
of two entries with one target, the order decides which limit a scan reaches. -/
theorem cut_map_reloaded :
    (∃ map loaded : ModuleWidths,
      buildPointerMap selfPointerTarget { maxMapEntries := 0 } = .ok map.map ∧
      loaded.LoadedFrom (some map.save) ∧
      (scanWithMap map.map {} fun _ => false).limitMapEntries = true ∧
      (scanWithMap loaded.map {} fun _ => false).limitMapEntries = false) ∧
    (tieMap heapSlot moduleSlot).LoadedFrom (some (tieMap moduleSlot heapSlot).save) ∧
    (scanWithMap (tieMap moduleSlot heapSlot).map tightConfig fun _ => false).limitResults = true ∧
    (scanWithMap (tieMap heapSlot moduleSlot).map tightConfig fun _ => false).limitResults
      = false := by
  have hwithin : (tieMap moduleSlot heapSlot).WithinLimits := by
    refine ⟨by decide, fun info hinfo => ?_⟩
    rw [List.mem_singleton.mp hinfo]
    exact ⟨nameText_game, by decide⟩
  have hfirst : (tieMap moduleSlot heapSlot).map.byTarget = [moduleSlot, heapSlot] :=
    tieMap_byTarget rfl
  have hsecond : (tieMap heapSlot moduleSlot).map.byTarget = [heapSlot, moduleSlot] :=
    tieMap_byTarget rfl
  refine ⟨?_, ⟨⟨_, _, loadPointerMap_save hwithin, ?_, (ModuleWidths.modules_fst _).symm,
    (ModuleWidths.modules_snd _).symm⟩, rfl⟩, ?_, ?_⟩
  · obtain ⟨map, hok, hcut, hmodules⟩ := cut_map_built
    have hempty : ModuleWidths.WithinLimits ⟨map, [], by rw [hmodules]; rfl⟩ := by
      refine ⟨by rw [hmodules]; decide, fun info hinfo => ?_⟩
      rw [hmodules] at hinfo
      cases hinfo
    obtain ⟨loaded, hload⟩ := ModuleWidths.exists_loaded hempty
    refine ⟨⟨map, [], by rw [hmodules]; rfl⟩, loaded, hok, hload, ?_, ?_⟩
    · rw [scan_limitMapEntries, hcut]
      decide
    · rw [scan_limitMapEntries, hload.truncated]
      decide
  · rw [hfirst, hsecond]
    exact List.Perm.swap _ _ _
  · have hscan := tight_scan (a := moduleSlot) (b := heapSlot) rfl rfl (by
      rw [window, hfirst]
      decide)
    rw [endpoint, findModule_eq] at hscan
    exact (congrArg Prod.fst hscan).trans (by decide)
  · have hscan := tight_scan (a := heapSlot) (b := moduleSlot) rfl rfl (by
      rw [window, hsecond]
      decide)
    rw [endpoint, findModule_eq] at hscan
    exact (congrArg Prod.fst hscan).trans (by decide)

/-- The map with the two slots, loaded again. -/
theorem tie_map_reloaded :
    (scanWithMap (tieMap heapSlot moduleSlot).map {} fun _ => false).limitMapEntries = false ∧
    (((scanWithMap (tieMap heapSlot moduleSlot).map {} fun _ => false).limitResults = false ∧
        (scanWithMap (tieMap heapSlot moduleSlot).map {} fun _ => false).limitWork = false) ↔
      ((scanWithMap (tieMap moduleSlot heapSlot).map {} fun _ => false).limitResults = false ∧
        (scanWithMap (tieMap moduleSlot heapSlot).map {} fun _ => false).limitWork = false)) ∧
    ((scanWithMap (tieMap moduleSlot heapSlot).map {} fun _ => false).limitResults = false →
      (scanWithMap (tieMap moduleSlot heapSlot).map {} fun _ => false).limitWork = false →
      (scanWithMap (tieMap heapSlot moduleSlot).map {} fun _ => false).paths.Perm
        (scanWithMap (tieMap moduleSlot heapSlot).map {} fun _ => false).paths) := by
  have hwithin : (tieMap moduleSlot heapSlot).WithinLimits := by
    refine ⟨by decide, fun info hinfo => ?_⟩
    rw [List.mem_singleton.mp hinfo]
    exact ⟨nameText_game, by decide⟩
  have hperm : (tieMap heapSlot moduleSlot).map.byTarget.Perm
      (tieMap moduleSlot heapSlot).map.byTarget := by
    rw [tieMap_byTarget (a := heapSlot) (b := moduleSlot) rfl,
      tieMap_byTarget (a := moduleSlot) (b := heapSlot) rfl]
    exact List.Perm.swap _ _ _
  have h := reloaded_scan hwithin ⟨⟨_, _, loadPointerMap_save hwithin, hperm,
    (ModuleWidths.modules_fst _).symm, (ModuleWidths.modules_snd _).symm⟩, rfl⟩ {}
  exact ⟨h.2.1, h.2.2.1, h.2.2.2.1⟩

end CheatEngine
