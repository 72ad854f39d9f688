import CheatEngineLinux.Scanner.PointerReload

/-!
# What a pointer scan returns

* `scan_is_breadth_first` — **PROVED**: an unsharded scan below its limits returns each chain
  back from the target once, in breadth-first order;
* `shards_cover` — **PROVED**: the shards of a scan return its paths between them, each path
  in one shard;
* `scan_sound_iff` — **PROVED**: the paths of every scan over a module list resolve to the
  target exactly when the list has no empty module in front of a module of its name
  (`NamesFirst`).
-/

namespace CheatEngine

open ChainSearch

def PointerScanConfig.shard (base : PointerScanConfig) (n j : ℕ) : PointerScanConfig :=
  { base with shardIndex := j, shardCount := n }

/-! ### A snapshot of one pointer -/

section OneEntry

variable (modules : List ModuleInfo) (e : Entry)

def oneEntryMap : PointerMap := PointerMap.setEntries [e] modules false (by simp)

def oneLinkConfig (target : UInt64) : PointerScanConfig :=
  { targetAddress := target, maxDepth := 1, maxOffset := 0 }

theorem oneEntryMap_byTarget : (oneEntryMap modules e).byTarget = [e] :=
  List.mergeSort_singleton _

theorem oneEntryMap_entry : (oneEntryMap modules e).entry 0 = e := by
  rw [PointerMap.entry, oneEntryMap_byTarget]
  rfl

theorem oneEntryMap_window :
    window (oneEntryMap modules e) (oneLinkConfig e.pointsTo) e.pointsTo = (0, 1) := by
  have hlen : (oneEntryMap modules e).byTarget.length = 1 := by rw [oneEntryMap_byTarget]; rfl
  have hle : (window (oneEntryMap modules e) (oneLinkConfig e.pointsTo) e.pointsTo).2 ≤ 1 := by
    rw [← hlen]
    exact BinarySearch.upperBound_le (oneEntryMap modules e).sorted _
  have hwin : InWindow (oneLinkConfig e.pointsTo) e.pointsTo
      ((oneEntryMap modules e).entry 0).pointsTo := by
    rw [oneEntryMap_entry]
    simp [InWindow, oneLinkConfig]
  have h := (@mem_window_iff (oneEntryMap modules e) (oneLinkConfig e.pointsTo)
    (show (0 : Int32) ≤ 0 by decide) e.pointsTo 0).mpr ⟨by omega, hwin⟩
  ext <;> simp only <;> omega

theorem oneEntryMap_walk (n j : ℕ) (s : Walk)
    (hv : s.visits = 0) (hr : s.results = []) (hs : s.stop = false) :
    let cfg := (oneLinkConfig e.pointsTo).shard n j
    let s' := walk (oneEntryMap modules e) cfg (fun _ => false) 1
      (startPass (oneEntryMap modules e) cfg s)
    s'.results = (pathAt modules cfg e [0]).toList ∧ s'.limitResults = s.limitResults ∧
      s'.limitWork = s.limitWork := by
  intro cfg
  set t := startPass (oneEntryMap modules e) cfg s with ht
  have hstack : t.stack = [⟨e.pointsTo, 0, 1⟩] := by
    change [Frame.mk e.pointsTo
      (window (oneEntryMap modules e) (oneLinkConfig e.pointsTo) e.pointsTo).1
      (window (oneEntryMap modules e) (oneLinkConfig e.pointsTo) e.pointsTo).2] = _
    rw [oneEntryMap_window]
  have hoff : toOffset (e.pointsTo - e.pointsTo) = 0 := by
    rw [UInt64.sub_self]
    rfl
  obtain ⟨u, hu⟩ : ∃ u, u = examine (oneEntryMap modules e) cfg 1 t.counted
      ⟨e.pointsTo, 0, 1⟩ [] := ⟨_, rfl⟩
  have hue : u = { t.counted with
      stack := [⟨e.pointsTo, 1, 1⟩]
      results := (pathAt modules cfg e [0]).toList
      deeper := t.counted.deeper || !t.counted.ancestors.contains e.locatedAt } := by
    have hc : t.counted.chain = [] := rfl
    have hr' : t.counted.results = [] := hr
    rw [hu, examine]
    simp only [List.length_nil, Nat.zero_add, if_true, oneEntryMap_entry, record, hoff, hc, hr']
    rw [show (oneEntryMap modules e).modules = modules from rfl]
    cases pathAt modules cfg e [0] with
    | none => rfl
    | some path => rfl
  have hstop : u.stop = false := by rw [hue]; exact hs
  have hstack' : u.stack = [⟨e.pointsTo, 1, 1⟩] := by rw [hue]
  have hv' : ¬ t.visits ≥ cfg.maxVisits := by
    rw [show t.visits = 0 from hv, show cfg.maxVisits = 2 ^ 32 from rfl]
    decide
  intro s'
  have hs' : s' = u.pop [] := by
    change walk _ _ _ 1 t = _
    rw [walk_cons _ _ _ hstack, if_neg Nat.zero_ne_one, if_neg hv', if_neg (by simp), ← hu,
      if_neg (by rw [hstop]; decide), walk_cons _ _ _ hstack', if_pos rfl, walk_nil _ _ _ rfl]
  rw [hs', hue]
  exact ⟨rfl, rfl, rfl⟩

theorem oneEntryMap_scan {n j : ℕ} (hj : j < n) :
    scanWithMap (oneEntryMap modules e) ((oneLinkConfig e.pointsTo).shard n j) (fun _ => false) =
      ⟨(pathAt modules ((oneLinkConfig e.pointsTo).shard n j) e [0]).toList,
        false, false, false⟩ := by
  have hrun : ((oneLinkConfig e.pointsTo).shard n j).runnable = true := by
    rw [runnable_iff]
    exact ⟨Nat.zero_lt_of_lt hj, hj, show (0 : ℤ) < 1 by decide, show (0 : Int32) ≤ 0 by decide⟩
  obtain ⟨h1, h2, h3⟩ := oneEntryMap_walk modules e n j { initialWalk with polls := 1 } rfl rfl rfl
  rw [scanWithMap, hrun, show ((oneLinkConfig e.pointsTo).shard n j).maxDepth.toNat = 1 from rfl]
  simp only [passes, initialWalk, Bool.not_true, Bool.false_eq_true, if_false, ite_self,
    Nat.zero_add] at h1 h2 h3 ⊢
  rw [h1, h2, h3]
  rfl

theorem oneEntryMap_limits {n j : ℕ} (hj : j < n) :
    (scanWithMap (oneEntryMap modules e) ((oneLinkConfig e.pointsTo).shard n j)
        fun _ => false).limitResults = false ∧
      (scanWithMap (oneEntryMap modules e) ((oneLinkConfig e.pointsTo).shard n j)
        fun _ => false).limitWork = false := by
  rw [oneEntryMap_scan modules e hj]
  exact ⟨rfl, rfl⟩

end OneEntry

section Complete

variable {map : PointerMap} {cfg : PointerScanConfig}

/-- A config the scan refuses has no chain to find. -/
theorem breadthFirst_eq_nil (hidx : cfg.shardIndex < cfg.shardCount)
    (hrun : cfg.runnable = false) : breadthFirst map cfg = [] := by
  rw [List.eq_nil_iff_forall_not_mem]
  intro c hc
  obtain ⟨hchain, hlen⟩ := (mem_breadthFirst_iff map cfg c).mp hc
  have hpos := List.length_pos_of_ne_nil hchain.nonempty
  obtain ⟨i, l, rfl⟩ := List.exists_cons_of_ne_nil hchain.nonempty
  have hwin := hchain.first i rfl
  have hrun' : cfg.runnable = true := by
    rw [runnable_iff]
    refine ⟨by omega, hidx, by omega, ?_⟩
    rw [Int32.le_iff_toInt_le]
    rw [InWindow] at hwin
    simp only [Int32.toInt_zero]
    split at hwin <;> omega
  rw [hrun] at hrun'
  cases hrun'

theorem scan_paths_eq (hcount : cfg.shardCount = 1) (hidx : cfg.shardIndex < cfg.shardCount)
    (hr : (scanWithMap map cfg fun _ => false).limitResults = false)
    (hw : (scanWithMap map cfg fun _ => false).limitWork = false) :
    (scanWithMap map cfg fun _ => false).paths =
      ((breadthFirst map cfg).filter (endsWell map cfg)).map (chainPath map cfg) := by
  by_cases hrun : cfg.runnable = true
  · obtain ⟨-, -, -, h0⟩ := runnable_iff.mp hrun
    rw [scan_paths hrun hr hw, visitsFrom_eq map cfg h0, List.filterMap_map, ← List.filterMap_eq_map,
      List.filterMap_filter]
    apply List.filterMap_congr
    intro c _
    rw [Function.comp_apply, visitPath_visitOf (by omega)]
    rfl
  · have hrun' : cfg.runnable = false := by simpa using hrun
    rw [breadthFirst_eq_nil hidx hrun']
    simp [scanWithMap, hrun']

/-- The scan is the breadth-first search: its paths are those of the chains back from the
target that end in a usable base, each once, shorter chains first and chains of one length by
their entry indices. -/
theorem scan_is_breadth_first (hcount : cfg.shardCount = 1) (hidx : cfg.shardIndex < cfg.shardCount)
    (hr : (scanWithMap map cfg fun _ => false).limitResults = false)
    (hw : (scanWithMap map cfg fun _ => false).limitWork = false) :
    ∃ chains : List (List ℕ),
      (scanWithMap map cfg fun _ => false).paths = chains.map (chainPath map cfg) ∧
      chains = (breadthFirst map cfg).filter (endsWell map cfg) ∧
      (∀ c, c ∈ chains ↔ IsChainTo map cfg c ∧ (c.length : ℤ) ≤ cfg.maxDepth ∧
        endsWell map cfg c = true) ∧
      chains.Nodup ∧ chains.Pairwise ChainBefore := by
  refine ⟨_, scan_paths_eq hcount hidx hr hw, rfl, fun c => ?_, ?_, ?_⟩
  · rw [List.mem_filter, mem_breadthFirst_iff, and_assoc]
  · refine ((breadthFirst_sorted map cfg).imp ?_).filter _
    rintro c c' (hlt | ⟨-, hlex⟩) rfl
    · exact Nat.lt_irrefl _ hlt
    · exact List.lex_irrefl (fun _ => Nat.lt_irrefl _) _ hlex
  · exact (breadthFirst_sorted map cfg).filter _

/-- A slot of the only module points to an object, which holds a pointer to the target. -/
def twoLinkMap : PointerMap where
  byTarget := [⟨0x5000, 0x1008⟩, ⟨0x9000, 0x5010⟩]
  byLocated := [0, 1]
  modules := [⟨0x1000, 0x1000, "game"⟩]
  truncated := false
  sorted := by decide
  size_le := by decide
  indexed := by decide
  ordered := by decide

def twoLinkConfig : PointerScanConfig :=
  { targetAddress := 0x9000, maxDepth := 2, maxOffset := 0x20, staticOnly := false }

theorem scan_is_breadth_first_two_links :
    (scanWithMap twoLinkMap twoLinkConfig fun _ => false).paths =
        [⟨"", 0, 0x5010, [0]⟩, ⟨"game", 0x1000, 8, [0x10, 0]⟩] ∧
      ∃ chains : List (List ℕ),
        (scanWithMap twoLinkMap twoLinkConfig fun _ => false).paths =
          chains.map (chainPath twoLinkMap twoLinkConfig) ∧
        chains = (breadthFirst twoLinkMap twoLinkConfig).filter
          (endsWell twoLinkMap twoLinkConfig) ∧
        (∀ c, c ∈ chains ↔ IsChainTo twoLinkMap twoLinkConfig c ∧
          (c.length : ℤ) ≤ twoLinkConfig.maxDepth ∧ endsWell twoLinkMap twoLinkConfig c = true) ∧
        chains.Nodup ∧ chains.Pairwise ChainBefore := by
  have hlim := (@scan_limits_iff twoLinkMap twoLinkConfig rfl).mpr ⟨by decide +kernel,
    Nat.le_trans (List.length_filterMap_le _ _) (by decide +kernel)⟩
  have hscan := scan_is_breadth_first rfl Nat.zero_lt_one hlim.1 hlim.2
  refine ⟨?_, hscan⟩
  obtain ⟨chains, hpaths, rfl, -⟩ := hscan
  rw [hpaths]
  decide +kernel

end Complete

/-! ### Shards -/

/-- Splitting a list by an owner below `n` keeps every element once. -/
theorem flatMap_owner_perm {α β : Type} (owner : α → ℕ) (f : α → Option β) {n : ℕ} (l : List α)
    (h : ∀ a ∈ l, owner a < n) :
    ((List.range n).flatMap fun j => l.filterMap fun a => if owner a = j then f a else none).Perm
      (l.filterMap f) := by
  induction l with
  | nil => simp
  | cons a l ih =>
    have hsplit : ∀ g : α → Option β, (a :: l).filterMap g = (g a).toList ++ l.filterMap g := by
      intro g
      cases hg : g a <;> simp [hg]
    have hhead : ((List.range n).flatMap fun j => (if owner a = j then f a else none).toList)
        = (f a).toList := by
      have ha := h a List.mem_cons_self
      have hout : ∀ l : List ℕ, owner a ∉ l →
          (l.flatMap fun j => (if owner a = j then f a else none).toList) = [] := by
        intro l hl
        rw [List.flatMap_eq_nil_iff]
        intro j hj
        rw [if_neg (fun he : owner a = j => hl (he ▸ hj))]
        rfl
      rw [List.range_eq_range', show n = owner a + (1 + (n - owner a - 1)) by omega,
        ← List.range'_append_1, ← List.range'_append_1, List.flatMap_append, List.flatMap_append,
        hout _ (by simp), hout (List.range' _ (n - owner a - 1)) (by simp)]
      simp
    simp only [hsplit]
    refine (List.flatMap_append_perm _ _ _).symm.trans ?_
    rw [hhead]
    exact (ih fun b hb => h b (List.mem_cons_of_mem _ hb)).append_left _

section Shards

variable (map : PointerMap) (cfg : PointerScanConfig)

def shardOf (modules : List ModuleInfo) (n : ℕ) (slot : UInt64) : ℕ :=
  match findModule modules slot with
  | some i => i % n
  | none => (slot >>> 12).toNat % n

theorem shardOf_lt (modules : List ModuleInfo) {n : ℕ} (hn : 0 < n) (slot : UInt64) :
    shardOf modules n slot < n := by
  rw [shardOf]
  split <;> exact Nat.mod_lt _ hn

theorem endpoint_shard (modules : List ModuleInfo) {base : PointerScanConfig}
    (hbase : base.shardCount = 1) {n j : ℕ} (hj : j < n) (slot : UInt64) :
    endpoint modules (base.shard n j) slot =
      if shardOf modules n slot = j then endpoint modules base slot else none := by
  -- a single shard owns everything
  have hmany : ∀ {k : ℕ}, ¬ k % n = j → 1 < n := by
    intro k hk
    by_contra hn
    rw [show n = 1 by omega, Nat.mod_one] at hk
    omega
  simp only [endpoint, shardOf, PointerScanConfig.shard, hbase]
  cases findModule modules slot with
  | some i =>
    by_cases hk : i % n = j
    · simp [hk]
    · simp [hk, hmany hk]
  | none =>
    by_cases hk : (slot >>> 12).toNat % n = j
    · simp only [hk]
      simp
    · have hn := hmany hk
      simp only [hk]
      simp_all

theorem visitPath_shard {base : PointerScanConfig} (hbase : base.shardCount = 1) {n j : ℕ}
    (hj : j < n) (v : Visit) :
    visitPath map (base.shard n j) v =
      if shardOf map.modules n (map.entry v.last).locatedAt = j then visitPath map base v
      else none := by
  rw [visitPath, pathAt, endpoint_shard _ hbase hj]
  split <;> rfl

theorem shardOf_eq_of_endpoint {modules : List ModuleInfo} {base : PointerScanConfig}
    (hbase : base.shardCount = 1) (n : ℕ) {slot slot' : UInt64} {b : String × UInt64 × UInt64}
    (h : endpoint modules base slot = some b) (h' : endpoint modules base slot' = some b) :
    shardOf modules n slot = shardOf modules n slot' := by
  have hname : ∀ {i : ℕ} {slot : UInt64}, findModule modules slot = some i →
      i ∈ nameable modules ∧ (moduleAt modules i).name ≠ "" := by
    intro i slot hi
    have hmem := (findModule_some hi).1
    refine ⟨hmem, fun he => ?_⟩
    have := ((mem_nameable_iff modules i).mp hmem).2.1
    rw [ModuleInfo.named, he] at this
    simp at this
  simp only [endpoint, hbase] at h h'
  rw [shardOf, shardOf]
  cases hf : findModule modules slot with
  | some i =>
    cases hf' : findModule modules slot' with
    | some k =>
      simp only [hf] at h
      simp only [hf'] at h'
      have hik : i = k := by
        apply nameable_name_inj (hname hf).1 (hname hf').1
        simp only [gt_iff_lt, lt_self_iff_false, decide_false, Bool.false_and, Bool.false_eq_true,
          if_false, Option.some.injEq] at h h'
        rw [← h'] at h
        exact congrArg Prod.fst h
      rw [hik]
    | none =>
      simp only [hf] at h
      simp only [hf'] at h'
      simp at h h'
      rw [← h'.2] at h
      exact absurd (congrArg Prod.fst h) (hname hf).2
  | none =>
    cases hf' : findModule modules slot' with
    | some k =>
      simp only [hf] at h
      simp only [hf'] at h'
      simp at h h'
      rw [← h.2] at h'
      exact absurd (congrArg Prod.fst h') (hname hf').2
    | none =>
      simp only [hf] at h
      simp only [hf'] at h'
      simp at h h'
      rw [← h.2] at h'
      have : slot' = slot := congrArg (fun b => b.2.2) h'.2
      rw [this]

variable {map cfg}

theorem shards_eq {base : PointerScanConfig} {n : ℕ} {shards : List PointerScanConfig}
    (h : makePointerScanShards base n = .ok shards) :
    0 < n ∧ shards = (List.range n).map (base.shard n) := by
  unfold makePointerScanShards at h
  by_cases hn : n = 0
  · rw [if_pos hn] at h
    cases h
  · rw [if_neg hn, Except.ok.injEq] at h
    exact ⟨Nat.pos_of_ne_zero hn, h.symm⟩

theorem runnable_shard {base : PointerScanConfig} (hcount : base.shardCount = 1)
    (hidx : base.shardIndex = 0) {n j : ℕ} (hj : j < n) :
    (base.shard n j).runnable = base.runnable := by
  rw [Bool.eq_iff_iff, runnable_iff, runnable_iff]
  simp only [PointerScanConfig.shard, hcount, hidx]
  constructor
  · rintro ⟨-, -, h⟩
    exact ⟨by omega, by omega, h⟩
  · rintro ⟨-, -, h⟩
    exact ⟨by omega, hj, h⟩

theorem shard_paths {base : PointerScanConfig} (hcount : base.shardCount = 1)
    (hidx : base.shardIndex = 0) (hrun : base.runnable = true) {n j : ℕ} (hj : j < n)
    (hr : (scanWithMap map (base.shard n j) fun _ => false).limitResults = false)
    (hw : (scanWithMap map (base.shard n j) fun _ => false).limitWork = false) :
    (scanWithMap map (base.shard n j) fun _ => false).paths =
      (visitsFrom map base base.maxDepth.toNat 0).filterMap fun v =>
        if shardOf map.modules n (map.entry v.last).locatedAt = j then visitPath map base v
        else none := by
  rw [scan_paths (by rw [runnable_shard hcount hidx hj, hrun]) hr hw]
  exact List.filterMap_congr fun v _ => visitPath_shard map hcount hj v

theorem shard_paths_disjoint {base : PointerScanConfig} (hcount : base.shardCount = 1)
    {n j k : ℕ} (hj : j < n) (hk : k < n) (hjk : j ≠ k) :
    List.Disjoint (scanWithMap map (base.shard n j) fun _ => false).paths
      (scanWithMap map (base.shard n k) fun _ => false).paths := by
  have howner : ∀ {j : ℕ} (_ : j < n) {p : PointerPath},
      p ∈ (scanWithMap map (base.shard n j) fun _ => false).paths →
      ∃ slot, shardOf map.modules n slot = j ∧
        endpoint map.modules base slot = some (p.module, p.moduleBase, p.baseOffset) := by
    intro j hj p hp
    obtain ⟨-, v, -, hv⟩ := mem_scan_paths hp
    rw [visitPath_shard map hcount hj] at hv
    split at hv
    · rename_i howns
      obtain ⟨b, hb, rfl⟩ := Option.map_eq_some_iff.mp hv
      exact ⟨_, howns, hb⟩
    · cases hv
  intro p hp hp'
  obtain ⟨slot, hs, he⟩ := howner hj hp
  obtain ⟨slot', hs', he'⟩ := howner hk hp'
  exact hjk (by rw [← hs, ← hs', shardOf_eq_of_endpoint hcount n he he'])

/-- The shards of a scan lose nothing and return nothing twice. -/
theorem shards_cover {base : PointerScanConfig} (hcount : base.shardCount = 1)
    (hidx : base.shardIndex = 0) {n : ℕ} {shards : List PointerScanConfig}
    (hs : makePointerScanShards base n = .ok shards)
    (hlimits : ∀ cfg ∈ base :: shards,
      (scanWithMap map cfg fun _ => false).limitResults = false ∧
      (scanWithMap map cfg fun _ => false).limitWork = false) :
    (shards.flatMap fun cfg => (scanWithMap map cfg fun _ => false).paths).Perm
        (scanWithMap map base fun _ => false).paths ∧
      shards.Pairwise fun a b =>
        List.Disjoint (scanWithMap map a fun _ => false).paths
          (scanWithMap map b fun _ => false).paths := by
  obtain ⟨hn, rfl⟩ := shards_eq hs
  have hshard : ∀ j < n, base.shard n j ∈ base :: (List.range n).map (base.shard n) :=
    fun j hj => List.mem_cons_of_mem _ (List.mem_map.mpr ⟨j, List.mem_range.mpr hj, rfl⟩)
  constructor
  · rw [List.flatMap_map]
    by_cases hrun : base.runnable = true
    · obtain ⟨hr, hw⟩ := hlimits base List.mem_cons_self
      rw [scan_paths hrun hr hw, List.flatMap_congr fun j hj =>
        shard_paths hcount hidx hrun (List.mem_range.mp hj)
          (hlimits _ (hshard j (List.mem_range.mp hj))).1
          (hlimits _ (hshard j (List.mem_range.mp hj))).2]
      exact flatMap_owner_perm _ _ _ fun v _ => shardOf_lt _ hn _
    · have hempty : ∀ cfg : PointerScanConfig, cfg.runnable = false →
          (scanWithMap map cfg fun _ => false).paths = [] := by
        intro cfg h
        simp [scanWithMap, h]
      have hrun' : base.runnable = false := by simpa using hrun
      rw [hempty base hrun', List.flatMap_congr fun j hj =>
        hempty _ (by rw [runnable_shard hcount hidx (List.mem_range.mp hj), hrun'])]
      simp
  · rw [List.pairwise_map]
    refine (List.pairwise_lt_range (n := n)).imp_of_mem fun {j k} hj hk hjk => ?_
    exact shard_paths_disjoint hcount (List.mem_range.mp hj) (List.mem_range.mp hk)
      (Nat.ne_of_lt hjk)

/-- Two workers over one slot: the one that owns its module returns the path. -/
theorem shards_cover_two_workers :
    let map := oneEntryMap [⟨0x1000, 0x1000, "game"⟩] ⟨5, 0x1008⟩
    let shards := (List.range 2).map ((oneLinkConfig 5).shard 2)
    (shards.flatMap fun cfg => (scanWithMap map cfg fun _ => false).paths).Perm
        (scanWithMap map (oneLinkConfig 5) fun _ => false).paths ∧
      shards.Pairwise fun a b =>
        List.Disjoint (scanWithMap map a fun _ => false).paths
          (scanWithMap map b fun _ => false).paths := by
  intro map shards
  have hlim : ∀ {n j : ℕ}, j < n → _ :=
    fun {n j} hj => @oneEntryMap_limits [⟨0x1000, 0x1000, "game"⟩] ⟨5, 0x1008⟩ n j hj
  refine @shards_cover map (oneLinkConfig 5) rfl rfl 2 shards rfl ?_
  intro cfg hcfg
  rcases List.mem_cons.mp hcfg with rfl | hcfg
  · exact hlim Nat.zero_lt_one
  · obtain ⟨j, hj, rfl⟩ := List.mem_map.mp hcfg
    exact hlim (List.mem_range.mp hj)

end Shards

/-! ### Soundness -/

section Sound

variable {map : PointerMap} {cfg : PointerScanConfig}

/-- What a path must be: at most `maxDepth` offsets within `maxOffset`, and a way from its
module to the target through the snapshot. -/
structure SoundPath (map : PointerMap) (cfg : PointerScanConfig) (path : PointerPath) : Prop where
  depth : (path.offsets.length : ℤ) ≤ cfg.maxDepth
  bound : ∀ off ∈ path.offsets, |off.toInt| ≤ cfg.maxOffset.toInt
  sign : cfg.negativeOffsets = false → ∀ off ∈ path.offsets, 0 ≤ off.toInt
  resolves : map.resolve path = cfg.targetAddress

/-- Every nameable module with an address of its own has the base of the first module of its
name, empty modules included: that one is the module `resolve` finds. -/
def NamesFirst (modules : List ModuleInfo) : Prop :=
  ∀ i ∈ nameable modules,
    (∃ slot, (moduleAt modules i).holds slot = true ∧
      ∀ k ∈ nameable modules, k < i → (moduleAt modules k).holds slot = false) →
    ∃ m, modules.find? (fun m => m.name == (moduleAt modules i).name) = some m ∧
      m.base = (moduleAt modules i).base

theorem linkOffsets_length (address : UInt64) (c : List ℕ) :
    (linkOffsets map address c).length = c.length := by
  induction c generalizing address with
  | nil => rfl
  | cons i c ih => rw [linkOffsets, List.length_cons, List.length_cons, ih]

/-- Consecutive links, the first of them in the window of `address`. -/
def LinkedFrom (map : PointerMap) (cfg : PointerScanConfig) : UInt64 → List ℕ → Prop
  | _, [] => True
  | address, i :: rest =>
    i < map.byTarget.length ∧ InWindow cfg address (map.entry i).pointsTo ∧
      LinkedFrom map cfg (slotOf map i) rest

theorem IsChainTo.linkedFrom {c : List ℕ} (hc : IsChainTo map cfg c) :
    LinkedFrom map cfg cfg.targetAddress c := by
  have key : ∀ (c : List ℕ) (address : UInt64), (∀ i ∈ c, i < map.byTarget.length) →
      (∀ i, c.head? = some i → InWindow cfg address (map.entry i).pointsTo) →
      (c.IsChain fun i j => InWindow cfg (map.entry i).locatedAt (map.entry j).pointsTo) →
      LinkedFrom map cfg address c := by
    intro c
    induction c with
    | nil => exact fun _ _ _ _ => trivial
    | cons i c ih =>
      intro address hb hf hn
      refine ⟨hb i List.mem_cons_self, hf i rfl, ih _ (fun j hj => hb j (List.mem_cons_of_mem _ hj))
        ?_ hn.tail⟩
      intro j hj
      obtain ⟨l, rfl⟩ : ∃ l, c = j :: l := by
        cases c with
        | nil => cases hj
        | cons k l => exact ⟨l, by rw [Option.some.inj hj]⟩
      exact (List.isChain_cons_cons.mp hn).1
  exact key c cfg.targetAddress hc.bounds hc.first hc.next

/-- The difference of a link, in 32 bits. -/
theorem InWindow.fits {address pointsTo : UInt64} (h : InWindow cfg address pointsTo) :
    -2 ^ 31 ≤ (address.toNat : ℤ) - pointsTo.toNat ∧
      (address.toNat : ℤ) - pointsTo.toNat < 2 ^ 31 := by
  have h1 := Int32.toInt_lt cfg.maxOffset
  have h2 := Int32.le_toInt cfg.maxOffset
  rw [InWindow] at h
  split at h <;> omega

theorem linkOffsets_bound {c : List ℕ} {address : UInt64} (hc : LinkedFrom map cfg address c) :
    ∀ off ∈ linkOffsets map address c,
      |off.toInt| ≤ cfg.maxOffset.toInt ∧ (cfg.negativeOffsets = false → 0 ≤ off.toInt) := by
  induction c generalizing address with
  | nil => exact fun _ h => absurd h List.not_mem_nil
  | cons i c ih =>
    obtain ⟨-, hwin, hrest⟩ := hc
    intro off hoff
    rcases List.mem_cons.mp hoff with rfl | hoff
    · rw [toOffset_toInt _ _ hwin.fits.1 hwin.fits.2, abs_le]
      rw [InWindow] at hwin
      split at hwin
      · rename_i hneg
        exact ⟨hwin, fun h => by rw [h] at hneg; cases hneg⟩
      · exact ⟨⟨by omega, hwin.2⟩, fun _ => hwin.1⟩
    · exact ih hrest off hoff

theorem follow_linkOffsets (hd : map.DistinctSlots) (hnz : ∀ e ∈ map.byTarget, e.pointsTo ≠ 0)
    {c : List ℕ} {address : UInt64} (hc : LinkedFrom map cfg address c) (tail : List Int32) :
    map.follow ((c.map (slotOf map)).getLastD address)
        ((linkOffsets map address c).reverse ++ tail) =
      map.follow address tail := by
  induction c generalizing address tail with
  | nil => rfl
  | cons i c ih =>
    obtain ⟨hi, hwin, hrest⟩ := hc
    rw [linkOffsets, List.map_cons, List.getLastD_cons, List.reverse_cons, List.append_assoc,
      ih hrest, List.singleton_append, PointerMap.follow, slotOf,
      PointerMap.valueAt_locatedAt hd hi]
    simp only
    rw [if_neg (hnz _ (map.entry_mem hi)), addOffset_toOffset _ _ hwin.fits.1 hwin.fits.2]

theorem getLastD_slotOf {c : List ℕ} (hc : c ≠ []) (address : UInt64) :
    (c.map (slotOf map)).getLastD address = (map.entry (c.getLastD 0)).locatedAt := by
  obtain ⟨l, a, rfl⟩ := List.eq_nil_or_concat c |>.resolve_left hc
  simp [slotOf]

theorem endpoint_base {modules : List ModuleInfo} (hb : ∀ m ∈ modules, m.base ≠ 0)
    (hn : NamesFirst modules) {slot : UInt64} {b : String × UInt64 × UInt64}
    (he : endpoint modules cfg slot = some b) :
    (b.1.isEmpty = true ∧ b.2.2 = slot) ∨
      (b.1.isEmpty = false ∧ b.2.1 ≤ slot ∧ b.2.2 = slot - b.2.1 ∧ b.2.1 ≠ 0 ∧
        ∃ m, modules.find? (fun m => m.name == b.1) = some m ∧ m.base = b.2.1) := by
  unfold endpoint at he
  cases hf : findModule modules slot with
  | some i =>
    simp only [hf] at he
    obtain ⟨hi, hown⟩ := (findModule_eq_some_iff _ _ _).mp hf
    obtain ⟨m, hm, hbase⟩ := hn i hi ⟨slot, hown⟩
    have hnamed := ((mem_nameable_iff _ i).mp hi).2.1
    have hne : (moduleAt modules i).base ≠ 0 := by
      rw [← hbase]
      exact hb m (List.mem_of_find?_eq_some hm)
    have hlow : (moduleAt modules i).base ≤ slot := by
      have h := hown.1
      rw [ModuleInfo.holds, Bool.and_eq_true, decide_eq_true_eq] at h
      exact h.1
    have hname : (moduleAt modules i).name.isEmpty = false := by
      rw [ModuleInfo.named] at hnamed
      simpa using (Bool.and_eq_true _ _).mp hnamed |>.1
    split at he
    · cases he
    · cases Option.some.inj he
      exact Or.inr ⟨hname, hlow, rfl, hne, m, hm, hbase⟩
  | none =>
    simp only [hf] at he
    split at he
    · cases he
    · split at he
      · cases he
      · cases Option.some.inj he
        exact Or.inl ⟨rfl, rfl⟩

theorem resolve_of_endpoint (hd : map.DistinctSlots) (hnz : ∀ e ∈ map.byTarget, e.pointsTo ≠ 0)
    (hb : ∀ m ∈ map.modules, m.base ≠ 0) (hn : NamesFirst map.modules) {c : List ℕ}
    (hc : IsChainTo map cfg c) {b : String × UInt64 × UInt64}
    (he : endpoint map.modules cfg (map.entry (c.getLastD 0)).locatedAt = some b) :
    map.resolve ⟨b.1, b.2.1, b.2.2, (linkOffsets map cfg.targetAddress c).reverse⟩ =
      cfg.targetAddress := by
  set slot := (map.entry (c.getLastD 0)).locatedAt with hslot
  have hfollow : map.follow slot (linkOffsets map cfg.targetAddress c).reverse
      = cfg.targetAddress := by
    have h := follow_linkOffsets hd hnz hc.linkedFrom []
    rw [getLastD_slotOf hc.nonempty, List.append_nil] at h
    exact h
  rcases endpoint_base hb hn he with ⟨hname, hoff⟩ | ⟨hname, -, hoff, hne, m, hm, hbase⟩
  · simp only [PointerMap.resolve, hname, if_true, hoff]
    exact hfollow
  · have hmb : map.moduleBase b.1 = b.2.1 := by
      rw [PointerMap.moduleBase, hm]
      exact hbase
    simp only [PointerMap.resolve, hname, Bool.false_eq_true, if_false, hmb, if_neg hne, hoff]
    rw [show b.2.1 + (slot - b.2.1) = slot by grind]
    exact hfollow

theorem soundPath_of_mem (hd : map.DistinctSlots) (hnz : ∀ e ∈ map.byTarget, e.pointsTo ≠ 0)
    (hb : ∀ m ∈ map.modules, m.base ≠ 0) (hn : NamesFirst map.modules)
    {cancelled : ℕ → Bool} {p : PointerPath} (hp : p ∈ (scanWithMap map cfg cancelled).paths) :
    SoundPath map cfg p := by
  obtain ⟨hrun, v, hv, hvp⟩ := mem_scan_paths hp
  obtain ⟨-, -, -, h0⟩ := runnable_iff.mp hrun
  rw [visitsFrom_eq map cfg h0] at hv
  obtain ⟨c, hc, rfl⟩ := List.mem_map.mp hv
  obtain ⟨hchain, hlen⟩ := (mem_breadthFirst_iff map cfg c).mp hc
  obtain ⟨b, hbase, rfl⟩ := Option.map_eq_some_iff.mp hvp
  have hbound := linkOffsets_bound hchain.linkedFrom
  have hoffs : (visitOf map cfg.targetAddress [] [cfg.targetAddress] c).offsets
      = (linkOffsets map cfg.targetAddress c).reverse := List.append_nil _
  rw [hoffs]
  refine ⟨?_, ?_, ?_, resolve_of_endpoint hd hnz hb hn hchain hbase⟩
  · rw [List.length_reverse, linkOffsets_length]
    exact hlen
  · intro off hoff
    exact (hbound off (List.mem_reverse.mp hoff)).1
  · intro hneg off hoff
    exact (hbound off (List.mem_reverse.mp hoff)).2 hneg

theorem oneEntryMap_distinctSlots (modules : List ModuleInfo) (e : Entry) :
    (oneEntryMap modules e).DistinctSlots := by
  rw [PointerMap.DistinctSlots, oneEntryMap_byTarget]
  exact List.nodup_singleton _

/-- The path of a slot of module `i`, with nothing added to the value in it. -/
theorem oneEntryMap_path {modules : List ModuleInfo} {e : Entry} {i : ℕ}
    (hi : findModule modules e.locatedAt = some i) :
    (⟨(moduleAt modules i).name, (moduleAt modules i).base,
        e.locatedAt - (moduleAt modules i).base, [0]⟩ : PointerPath) ∈
      (scanWithMap (oneEntryMap modules e) (oneLinkConfig e.pointsTo) fun _ => false).paths := by
  have hscan := oneEntryMap_scan modules e Nat.zero_lt_one
  refine (congrArg (_ ∈ ScanOutcome.paths ·) hscan).mpr ?_
  simp [pathAt, endpoint, hi, PointerScanConfig.shard]

theorem oneEntryMap_resolve {modules : List ModuleInfo} {e : Entry} (he : e.pointsTo ≠ 0)
    {p : PointerPath} {off : Int32} (hoff : p.offsets = [off]) (hname : p.module.isEmpty = false)
    (hres : (oneEntryMap modules e).resolve p = e.pointsTo) :
    (oneEntryMap modules e).moduleBase p.module + p.baseOffset = e.locatedAt := by
  simp only [PointerMap.resolve, hname, Bool.false_eq_true, if_false] at hres
  split at hres
  · exact absurd hres.symm he
  · rw [hoff, PointerMap.follow] at hres
    split at hres
    · rename_i v hv
      obtain ⟨j, hj, hloc, -⟩ := PointerMap.valueAt_eq_some hv
      have hmem := (oneEntryMap modules e).entry_mem hj
      rw [oneEntryMap_byTarget, List.mem_singleton] at hmem
      rw [← hloc, hmem]
    · exact absurd hres.symm he

theorem namesFirst_of_sound {modules : List ModuleInfo}
    (h : ∀ e : Entry, e.pointsTo ≠ 0 → ∀ p ∈ (scanWithMap (oneEntryMap modules e)
      (oneLinkConfig e.pointsTo) fun _ => false).paths,
      (oneEntryMap modules e).resolve p = e.pointsTo) : NamesFirst modules := by
  rintro i hi ⟨slot, hown⟩
  have hfind := (findModule_eq_some_iff modules slot i).mpr ⟨hi, hown⟩
  have hnamed := ((mem_nameable_iff _ i).mp hi).2.1
  have hname : (moduleAt modules i).name.isEmpty = false := by
    rw [ModuleInfo.named] at hnamed
    simpa using (Bool.and_eq_true _ _).mp hnamed |>.1
  have hone : (1 : UInt64) ≠ 0 := by decide
  have hres := oneEntryMap_resolve hone rfl hname
    (h ⟨1, slot⟩ hone _ (@oneEntryMap_path modules ⟨1, slot⟩ i hfind))
  simp only [PointerMap.moduleBase] at hres
  have hmods : (oneEntryMap modules ⟨1, slot⟩).modules = modules := rfl
  rw [hmods] at hres
  -- the module itself has its name, so the search by name finds one
  have hmem : moduleAt modules i ∈ modules := by
    rw [moduleAt, List.getD_eq_getElem _ _ ((mem_nameable_iff _ i).mp hi).1]
    exact List.getElem_mem _
  have hfound : (modules.find? fun m => m.name == (moduleAt modules i).name).isSome = true := by
    rw [List.find?_isSome]
    exact ⟨moduleAt modules i, hmem, beq_self_eq_true _⟩
  obtain ⟨m, hm⟩ := Option.isSome_iff_exists.mp hfound
  rw [hm] at hres
  exact ⟨m, hm, by grind⟩

/-- Every scan over a module list is sound exactly when the list gives its names back: the
scan takes the first non-empty module of a name, `resolve` the first module of it. -/
theorem scan_sound_iff (modules : List ModuleInfo) (hb : ∀ m ∈ modules, m.base ≠ 0) :
    (∀ map : PointerMap, map.modules = modules → map.DistinctSlots →
      (∀ e ∈ map.byTarget, e.pointsTo ≠ 0) → ∀ (cfg : PointerScanConfig) (cancelled : ℕ → Bool),
      ∀ p ∈ (scanWithMap map cfg cancelled).paths, SoundPath map cfg p) ↔ NamesFirst modules := by
  constructor
  · intro h
    refine namesFirst_of_sound fun e he p hp => ?_
    refine (h (oneEntryMap modules e) rfl (oneEntryMap_distinctSlots modules e) ?_ _ _ p hp).resolves
    rw [oneEntryMap_byTarget]
    exact fun e' he' => List.mem_singleton.mp he' ▸ he
  · rintro hn map rfl hd hnz cfg cancelled p hp
    exact soundPath_of_mem hd hnz hb hn hp

/-- Two nested modules, each the first of its name. -/
theorem scan_sound_nested_modules :
    NamesFirst [⟨0x1000, 0x4000, "game"⟩, ⟨0x2000, 0x1000, "lib"⟩] ∧
      ∀ map : PointerMap, map.modules = [⟨0x1000, 0x4000, "game"⟩, ⟨0x2000, 0x1000, "lib"⟩] →
        map.DistinctSlots → (∀ e ∈ map.byTarget, e.pointsTo ≠ 0) →
        ∀ (cfg : PointerScanConfig) (cancelled : ℕ → Bool),
        ∀ p ∈ (scanWithMap map cfg cancelled).paths, SoundPath map cfg p := by
  suffices h : NamesFirst [⟨0x1000, 0x4000, "game"⟩, ⟨0x2000, 0x1000, "lib"⟩] from
    ⟨h, (scan_sound_iff _ (by decide)).mpr h⟩
  intro i hi _
  have hi' : i = 0 ∨ i = 1 := by
    have h : i ∈ [0, 1] := hi
    simpa using h
  rcases hi' with rfl | rfl
  · exact ⟨⟨0x1000, 0x4000, "game"⟩, by decide, rfl⟩
  · exact ⟨⟨0x2000, 0x1000, "lib"⟩, by decide, rfl⟩

/-- An empty module in front of the module of its name: the scan names the second one, and
the name leads to the first. -/
theorem scan_unsound_empty_module :
    let modules : List ModuleInfo := [⟨0x1000, 0, "game"⟩, ⟨0x2000, 0x1000, "game"⟩]
    let map := oneEntryMap modules ⟨0x5000, 0x2008⟩
    let cfg := oneLinkConfig 0x5000
    let path : PointerPath := ⟨"game", 0x2000, 8, [0]⟩
    map.DistinctSlots ∧ (∀ e ∈ map.byTarget, e.pointsTo ≠ 0) ∧
      (∀ m ∈ map.modules, m.base ≠ 0 ∧ m.base.toNat + m.size.toNat < 2 ^ 64) ∧
      path ∈ (scanWithMap map cfg fun _ => false).paths ∧ map.resolve path ≠ cfg.targetAddress := by
  intro modules map cfg path
  have hfind : findModule modules 0x2008 = some 1 := by
    rw [findModule_eq]
    decide
  have hoff : (0x2008 : UInt64) - 0x2000 = 8 := by decide
  have hpath := @oneEntryMap_path modules ⟨0x5000, 0x2008⟩ 1 hfind
  rw [show (moduleAt modules 1).base = 0x2000 from rfl, hoff] at hpath
  refine ⟨oneEntryMap_distinctSlots _ _, ?_, by decide, hpath, fun hres => ?_⟩
  · rw [oneEntryMap_byTarget]
    decide
  · have h := @oneEntryMap_resolve modules ⟨0x5000, 0x2008⟩ (by decide) path 0 rfl (by decide) hres
    exact absurd h (by decide)

end Sound

end CheatEngine
