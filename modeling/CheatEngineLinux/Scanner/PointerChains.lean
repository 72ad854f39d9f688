import CheatEngineLinux.Library.ChainSearch
import CheatEngineLinux.Scanner.PointerScan

/-!
# What a pass of the pointer scan records

The walk keeps one chain at a time on an explicit stack.  Its meaning is the list of chains
it has still to examine:

* `outLinks` / `slotOf` — the pointer map as a search space of numbered links;
* `Visit` — an examined chain: its last entry, its offsets and whether it may go on;
* `pending` — the visits a stack still owes, innermost frame first;
* `walk_spec` — **PROVED**: a walk appends the paths of a leading part of what is pending, and
  of all of it when it is not stopped;
* `passes_spec` — **PROVED**: the passes append the paths of the levels one after the other,
  and the early stop loses nothing.
-/

namespace CheatEngine

open ChainSearch

section Links

variable (map : PointerMap) (cfg : PointerScanConfig)

def slotOf (i : ℕ) : UInt64 := (map.entry i).locatedAt

/-- The entries in the offset window of an address, by index. -/
def outLinks (address : UInt64) : List ℕ :=
  List.range' (window map cfg address).1
    ((window map cfg address).2 - (window map cfg address).1)

/-- The offsets of a chain that starts at `address`, outermost first. -/
def linkOffsets : UInt64 → List ℕ → List Int32
  | _, [] => []
  | address, i :: rest =>
    toOffset (address - (map.entry i).pointsTo) :: linkOffsets (slotOf map i) rest

/-- An examined chain: the entry it ends at, its offsets innermost first, and whether the
slot it ends in is new. -/
structure Visit where
  last : ℕ
  offsets : List Int32
  fresh : Bool
  deriving Repr, DecidableEq

/-- The visit of a chain that starts at `address` below the offsets `chain`. -/
def visitOf (address : UInt64) (chain : List Int32) (ancestors : List UInt64) (c : List ℕ) :
    Visit :=
  ⟨c.getLastD 0, (linkOffsets map address c).reverse ++ chain,
    mayGoOn (slotOf map) ancestors c⟩

/-- The visits owed by a frame with `n` levels below it. -/
def frameVisits (n : ℕ) (f : Frame) (chain : List Int32) (ancestors : List UInt64) :
    List Visit :=
  (chainsOn (outLinks map cfg) (slotOf map) n ancestors
    (List.range' f.next (f.finish - f.next))).map (visitOf map f.address chain ancestors)

def pending (pass : ℕ) : List Frame → List Int32 → List UInt64 → List Visit
  | [], _, _ => []
  | f :: below, chain, ancestors =>
    frameVisits map cfg (pass - (below.length + 1)) f chain ancestors
      ++ pending pass below chain.tail ancestors.tail

def visitPath (v : Visit) : Option PointerPath :=
  pathAt map.modules cfg (map.entry v.last) v.offsets

end Links

section Walk

variable {map : PointerMap} {cfg : PointerScanConfig} {cancelled : ℕ → Bool}

theorem frameVisits_done (n : ℕ) (f : Frame) (chain : List Int32) (ancestors : List UInt64)
    (h : f.next = f.finish) : frameVisits map cfg n f chain ancestors = [] := by
  simp [frameVisits, h]

theorem frameVisits_step (n : ℕ) (f : Frame) (chain : List Int32) (ancestors : List UInt64)
    (h : f.next < f.finish) :
    frameVisits map cfg n f chain ancestors =
      (chainsOn (outLinks map cfg) (slotOf map) n ancestors [f.next]).map
          (visitOf map f.address chain ancestors)
        ++ frameVisits map cfg n { f with next := f.next + 1 } chain ancestors := by
  have hr : List.range' f.next (f.finish - f.next)
      = f.next :: List.range' (f.next + 1) (f.finish - (f.next + 1)) := by
    rw [show f.finish - f.next = (f.finish - (f.next + 1)) + 1 by omega, List.range'_succ]
  rw [frameVisits, frameVisits, hr, chainsOn_cons, List.map_append]

theorem headVisits_zero (f : Frame) (chain : List Int32) (ancestors : List UInt64) :
    (chainsOn (outLinks map cfg) (slotOf map) 0 ancestors [f.next]).map
        (visitOf map f.address chain ancestors) =
      [⟨f.next, toOffset (f.address - (map.entry f.next).pointsTo) :: chain,
        !ancestors.contains (map.entry f.next).locatedAt⟩] := by
  simp only [chainsOn, List.map_cons, List.map_nil, visitOf, linkOffsets, List.reverse_singleton,
    List.singleton_append, mayGoOn, innerNodes, List.getLast?_singleton, List.dropLast_singleton,
    List.not_mem_nil, not_false_eq_true, decide_true, Bool.true_and, List.getLastD_cons,
    List.getLastD_nil, slotOf, List.contains_eq_mem]
  exact congrArg (fun b => [Visit.mk f.next _ b]) decide_not

theorem headVisits_succ (n : ℕ) (f : Frame) (chain : List Int32) (ancestors : List UInt64) :
    (chainsOn (outLinks map cfg) (slotOf map) (n + 1) ancestors [f.next]).map
        (visitOf map f.address chain ancestors) =
      if (map.entry f.next).locatedAt ∈ ancestors then []
      else frameVisits map cfg n
        ⟨(map.entry f.next).locatedAt, (window map cfg (map.entry f.next).locatedAt).1,
          (window map cfg (map.entry f.next).locatedAt).2⟩
        (toOffset (f.address - (map.entry f.next).pointsTo) :: chain)
        ((map.entry f.next).locatedAt :: ancestors) := by
  rw [chainsOn_succ_single]
  change List.map _ (if (map.entry f.next).locatedAt ∈ ancestors then _ else _) = _
  split
  · rfl
  · rw [frameVisits, List.map_map]
    apply List.map_congr_left
    intro c hc
    have hne := ne_nil_of_mem_chainsOn hc
    obtain ⟨b, l, rfl⟩ := List.exists_cons_of_ne_nil hne
    simp only [Function.comp_apply, visitOf, mayGoOn_cons _ _ hne, linkOffsets,
      List.getLastD_cons, slotOf, List.reverse_cons, List.append_assoc, List.cons_append,
      List.nil_append]

/-- What the loop keeps: no frame is deeper than the pass, and no frame is past its end. -/
structure WalkInv (pass : ℕ) (s : Walk) : Prop where
  depth : s.stack.length ≤ pass
  bounds : ∀ f ∈ s.stack, f.next ≤ f.finish

variable (map cfg) in
/-- The visits a state still owes. -/
def owed (pass : ℕ) (s : Walk) : List Visit :=
  pending map cfg pass s.stack s.chain s.ancestors

theorem owed_step {pass : ℕ} {s : Walk} {frame : Frame} {below : List Frame}
    (hs : s.stack = frame :: below) (hlt : frame.next < frame.finish) :
    owed map cfg pass s =
      (chainsOn (outLinks map cfg) (slotOf map) (pass - (below.length + 1)) s.ancestors
          [frame.next]).map (visitOf map frame.address s.chain s.ancestors)
        ++ pending map cfg pass ({ frame with next := frame.next + 1 } :: below) s.chain
            s.ancestors := by
  rw [owed, hs, pending, frameVisits_step _ _ _ _ hlt, List.append_assoc]
  rfl

theorem examine_cases (pass : ℕ) (s : Walk) (frame : Frame) (below : List Frame)
    (hs : s.stack = frame :: below) (hlt : frame.next < frame.finish) (hinv : WalkInv pass s)
    (hstop : s.stop = false) :
    let s' := examine map cfg pass s frame below
    (s'.stop = true ∧ s'.limitResults = true ∧ s'.results = s.results) ∨
      (s'.stop = false ∧ s'.limitResults = s.limitResults ∧ s'.limitWork = s.limitWork ∧
        WalkInv pass s' ∧
        ∃ done, owed map cfg pass s = done ++ owed map cfg pass s' ∧
          s'.results = s.results ++ done.filterMap (visitPath map cfg) ∧
          s'.deeper = (s.deeper || done.any Visit.fresh)) := by
  intro s'
  have hd : below.length + 1 ≤ pass := by
    have := hinv.depth
    rw [hs] at this
    simpa using this
  have hbelow : ∀ f ∈ below, f.next ≤ f.finish :=
    fun f hf => hinv.bounds f (by rw [hs]; exact List.mem_cons_of_mem _ hf)
  have howed := @owed_step map cfg pass s frame below hs hlt
  have hkeep : ∀ f ∈ ({ frame with next := frame.next + 1 } : Frame) :: below,
      f.next ≤ f.finish := by
    intro f hf
    rcases List.mem_cons.mp hf with rfl | hf
    · exact hlt
    · exact hbelow f hf
  by_cases hpass : below.length + 1 = pass
  · -- at the depth of the pass: the entry is recorded
    rw [show pass - (below.length + 1) = 0 by omega, headVisits_zero] at howed
    set v : Visit := ⟨frame.next,
      toOffset (frame.address - (map.entry frame.next).pointsTo) :: s.chain,
      !s.ancestors.contains (map.entry frame.next).locatedAt⟩ with hv
    have hvp : pathAt map.modules cfg (map.entry frame.next)
        (toOffset (frame.address - (map.entry frame.next).pointsTo) :: s.chain)
        = visitPath map cfg v := rfl
    have hs' : s' = examine map cfg pass s frame below := rfl
    rw [examine, if_pos hpass, record, hvp] at hs'
    cases hp : visitPath map cfg v with
    | none =>
      rw [hp] at hs'
      right
      rw [hs']
      refine ⟨hstop, rfl, rfl, ⟨by simpa using hd, hkeep⟩, [v], howed, ?_, ?_⟩
      · simp [hp]
      · simp [hv]
    | some path =>
      rw [hp] at hs'
      simp only at hs'
      by_cases hcap : s.results.length ≥ cfg.maxResults
      · rw [if_pos hcap] at hs'
        left
        rw [hs']
        exact ⟨rfl, rfl, rfl⟩
      · rw [if_neg hcap] at hs'
        right
        rw [hs']
        refine ⟨hstop, rfl, rfl, ⟨by simpa using hd, hkeep⟩, [v], howed, ?_, ?_⟩
        · simp [hp]
        · simp [hv]
  · -- above it: a fresh slot gets a frame of its own, any other is passed over
    obtain ⟨n, hn⟩ : ∃ n, pass - (below.length + 1) = n + 1 := ⟨pass - (below.length + 1) - 1, by omega⟩
    rw [hn, headVisits_succ] at howed
    right
    by_cases hfresh : (map.entry frame.next).locatedAt ∈ s.ancestors
    · rw [if_pos hfresh, List.nil_append] at howed
      have hs' : s' = { s with stack := { frame with next := frame.next + 1 } :: below } := by
        simp [s', examine, hpass, hfresh]
      rw [hs']
      exact ⟨hstop, rfl, rfl, ⟨by simpa using hd, hkeep⟩, [], by rw [howed]; rfl, by simp, by simp⟩
    · rw [if_neg hfresh] at howed
      have hs' : s' = { s with
          chain := toOffset (frame.address - (map.entry frame.next).pointsTo) :: s.chain
          ancestors := (map.entry frame.next).locatedAt :: s.ancestors
          stack := ⟨(map.entry frame.next).locatedAt,
              (window map cfg (map.entry frame.next).locatedAt).1,
              (window map cfg (map.entry frame.next).locatedAt).2⟩
            :: { frame with next := frame.next + 1 } :: below } := by
        simp [s', examine, hpass, hfresh]
      rw [hs']
      refine ⟨hstop, rfl, rfl, ⟨?_, ?_⟩, [], ?_, by simp, by simp⟩
      · simp only [List.length_cons]
        omega
      · intro f hf
        rcases List.mem_cons.mp hf with rfl | hf
        · exact window_le map cfg _
        · exact hkeep f hf
      · rw [howed, List.nil_append, owed]
        conv_rhs => rw [pending]
        simp only [List.tail_cons]
        rw [show pass - ((({ frame with next := frame.next + 1 } : Frame) :: below).length + 1) = n by
          simp only [List.length_cons]; omega]

/-- What a walk leaves behind: the paths of a leading part of what it owed, and of all of it
unless it was stopped. -/
structure WalkDone (map : PointerMap) (cfg : PointerScanConfig) (cancelled : ℕ → Bool)
    (owes : List Visit) (s s' : Walk) : Prop where
  part : ∃ done, done <+: owes ∧ s'.results = s.results ++ done.filterMap (visitPath map cfg)
  whole : s'.stop = false →
    s'.results = s.results ++ owes.filterMap (visitPath map cfg) ∧
      s'.deeper = (s.deeper || owes.any Visit.fresh) ∧
      s'.limitResults = s.limitResults ∧ s'.limitWork = s.limitWork
  stops : s'.stop = true → s'.limitResults = true ∨ s'.limitWork = true ∨ ∃ k, cancelled k = true

theorem WalkDone.of_stopped {owes : List Visit} {s s' : Walk} (hr : s'.results = s.results)
    (hstop : s'.stop = true)
    (hwhy : s'.limitResults = true ∨ s'.limitWork = true ∨ ∃ k, cancelled k = true) :
    WalkDone map cfg cancelled owes s s' :=
  ⟨⟨[], List.nil_prefix, by simp [hr]⟩, fun h => absurd h (by rw [hstop]; decide),
    fun _ => hwhy⟩

theorem WalkDone.trans {done owes : List Visit} {s s₁ s' : Walk}
    (hr : s₁.results = s.results ++ done.filterMap (visitPath map cfg))
    (hd : s₁.deeper = (s.deeper || done.any Visit.fresh))
    (hlr : s₁.limitResults = s.limitResults) (hlw : s₁.limitWork = s.limitWork)
    (h : WalkDone map cfg cancelled owes s₁ s') :
    WalkDone map cfg cancelled (done ++ owes) s s' := by
  refine ⟨?_, fun hns => ?_, h.stops⟩
  · obtain ⟨d, hpre, hres⟩ := h.part
    refine ⟨done ++ d, (List.prefix_append_right_inj done).mpr hpre, ?_⟩
    rw [hres, hr, List.filterMap_append, List.append_assoc]
  · obtain ⟨h1, h2, h3, h4⟩ := h.whole hns
    refine ⟨?_, ?_, h3.trans hlr, h4.trans hlw⟩
    · rw [h1, hr, List.filterMap_append, List.append_assoc]
    · rw [h2, hd, List.any_append, Bool.or_assoc]

theorem walkDone_examine (pass : ℕ) (s : Walk) (frame : Frame) (below : List Frame)
    (hs : s.stack = frame :: below) (hlt : frame.next < frame.finish) (hinv : WalkInv pass s)
    (hstop : s.stop = false) (run : Walk → Walk)
    (ih : ∀ s', s' = examine map cfg pass s frame below → s'.stop = false → WalkInv pass s' →
      WalkDone map cfg cancelled (owed map cfg pass s') s' (run s')) :
    WalkDone map cfg cancelled (owed map cfg pass s) s
      (if (examine map cfg pass s frame below).stop then examine map cfg pass s frame below
        else run (examine map cfg pass s frame below)) := by
  rcases @examine_cases map cfg pass s frame below hs hlt hinv hstop with
    ⟨h1, h2, h3⟩ | ⟨h1, h2, h3, h4, done, h5, h6, h7⟩
  · rw [if_pos h1]
    exact WalkDone.of_stopped h3 h1 (Or.inl h2)
  · rw [if_neg (by rw [h1]; decide), h5]
    exact WalkDone.trans h6 h7 h2 h3 (ih _ rfl h1 h4)

theorem owed_pop {pass : ℕ} {s : Walk} {frame : Frame} {below : List Frame}
    (hs : s.stack = frame :: below) (hdone : frame.next = frame.finish) :
    owed map cfg pass s = owed map cfg pass (s.pop below) := by
  rw [owed, hs, pending, frameVisits_done _ _ _ _ hdone, List.nil_append, owed]
  cases below with
  | nil => rfl
  | cons b rest => rfl

theorem WalkInv.pop {pass : ℕ} {s : Walk} {frame : Frame} {below : List Frame}
    (h : WalkInv pass s) (hs : s.stack = frame :: below) : WalkInv pass (s.pop below) := by
  have hd := h.depth
  rw [hs] at hd
  refine ⟨?_, fun f hf => h.bounds f (by rw [hs]; exact List.mem_cons_of_mem _ hf)⟩
  simp only [Walk.pop, List.length_cons] at hd ⊢
  omega

theorem walk_spec (pass : ℕ) (s : Walk) (hinv : WalkInv pass s) (hstop : s.stop = false) :
    WalkDone map cfg cancelled (owed map cfg pass s) s (walk map cfg cancelled pass s) := by
  induction s using walk.induct map cfg cancelled pass with
  | case1 s hs =>
    rw [walk_nil map cfg cancelled hs, owed, hs]
    exact ⟨⟨[], List.nil_prefix, by simp⟩, fun _ => by simp [pending], fun h => by simp [hstop] at h⟩
  | case2 s frame below hs hdone ih =>
    rw [walk_cons map cfg cancelled hs, if_pos hdone, owed_pop hs hdone]
    -- popping touches neither the results nor the flags
    have h := ih (hinv.pop hs) hstop
    exact ⟨h.part, h.whole, h.stops⟩
  | case3 s frame below hs hdone hv =>
    rw [walk_cons map cfg cancelled hs, if_neg hdone, if_pos hv]
    exact WalkDone.of_stopped rfl rfl (Or.inr (Or.inl rfl))
  | case4 s frame below hs hdone hv hc =>
    rw [walk_cons map cfg cancelled hs, if_neg hdone, if_neg hv, if_pos hc]
    rw [Bool.and_eq_true] at hc
    exact WalkDone.of_stopped rfl rfl (Or.inr (Or.inr ⟨s.polls, hc.2⟩))
  | case5 s frame below hs hdone hv hc hex =>
    have hlt : frame.next < frame.finish :=
      lt_of_le_of_ne (hinv.bounds frame (by rw [hs]; exact List.mem_cons_self)) hdone
    rw [walk_cons map cfg cancelled hs, if_neg hdone, if_neg hv, if_neg hc, if_pos hex]
    have h := @walkDone_examine map cfg cancelled pass s.counted
      frame below hs hlt ⟨hinv.depth, hinv.bounds⟩ hstop id
      (fun s' he hs' _ => by rw [he, hex] at hs'; cases hs')
    rw [if_pos hex] at h
    exact ⟨h.part, h.whole, h.stops⟩
  | case6 s frame below hs hdone hv hc hex ih =>
    have hlt : frame.next < frame.finish :=
      lt_of_le_of_ne (hinv.bounds frame (by rw [hs]; exact List.mem_cons_self)) hdone
    rw [walk_cons map cfg cancelled hs, if_neg hdone, if_neg hv, if_neg hc]
    have h := @walkDone_examine map cfg cancelled pass s.counted
      frame below hs hlt ⟨hinv.depth, hinv.bounds⟩ hstop (walk map cfg cancelled pass)
      (fun s' he hs' hi => by subst he; exact ih hi hs')
    exact ⟨h.part, h.whole, h.stops⟩

/-! ### The passes -/

variable (map cfg) in
/-- The chains of `n + 1` links back from the target, in the order of the walk. -/
def levelChains (n : ℕ) : List (List ℕ) :=
  chainsOn (outLinks map cfg) (slotOf map) n [cfg.targetAddress]
    (outLinks map cfg cfg.targetAddress)

variable (map cfg) in
/-- The visits of pass `n + 1`. -/
def levelVisits (n : ℕ) : List Visit :=
  (levelChains map cfg n).map (visitOf map cfg.targetAddress [] [cfg.targetAddress])

variable (map cfg) in
/-- Everything the passes from `n + 1` on would visit, `k` of them. -/
def visitsFrom (k n : ℕ) : List Visit :=
  (List.range k).flatMap fun d => levelVisits map cfg (n + d)

theorem visitsFrom_succ (k n : ℕ) :
    visitsFrom map cfg (k + 1) n = levelVisits map cfg n ++ visitsFrom map cfg k (n + 1) := by
  simp only [visitsFrom, List.range_succ_eq_map, List.flatMap_cons, List.flatMap_map, Nat.add_zero]
  congr 1
  apply List.flatMap_congr
  intro d _
  rw [Nat.succ_eq_add_one, show n + (d + 1) = n + 1 + d by omega]

theorem levelVisits_fresh (n : ℕ) :
    (levelVisits map cfg n).any Visit.fresh =
      (levelChains map cfg n).any (mayGoOn (slotOf map) [cfg.targetAddress]) := by
  rw [levelVisits, List.any_map]
  rfl

theorem visitsFrom_eq_nil {n : ℕ} (h : (levelVisits map cfg n).any Visit.fresh = false) (k : ℕ) :
    visitsFrom map cfg k (n + 1) = [] := by
  rw [levelVisits_fresh, levelChains, chainsOn_eq_level] at h
  rw [visitsFrom, List.flatMap_eq_nil_iff]
  intro d _
  rw [levelVisits, levelChains, chainsOn_eq_level, level_eq_nil_of_le h _ (by omega), List.map_nil]

theorem startPass_owed (n : ℕ) (s : Walk) :
    owed map cfg (n + 1) (startPass map cfg s) = levelVisits map cfg n := by
  simp [owed, startPass, pending, frameVisits, levelVisits, levelChains, outLinks]

theorem startPass_inv (n : ℕ) (s : Walk) : WalkInv (n + 1) (startPass map cfg s) := by
  refine ⟨by simp [startPass], fun f hf => ?_⟩
  simp only [startPass, List.mem_singleton] at hf
  subst hf
  exact window_le map cfg _

/-- What the passes leave behind, in the terms of `WalkDone`: the flag `deeper` is not part
of it. -/
structure PassesDone (map : PointerMap) (cfg : PointerScanConfig) (cancelled : ℕ → Bool)
    (owes : List Visit) (s s' : Walk) : Prop where
  part : ∃ done, done <+: owes ∧ s'.results = s.results ++ done.filterMap (visitPath map cfg)
  whole : s'.limitResults = false → s'.limitWork = false → (∀ k, cancelled k = false) →
    s'.results = s.results ++ owes.filterMap (visitPath map cfg)

theorem passes_spec : ∀ (k n : ℕ) (s : Walk), s.stop = false →
    PassesDone map cfg cancelled (visitsFrom map cfg k n) s
      (passes map cfg cancelled k (n + 1) s) := by
  intro k
  induction k with
  | zero =>
    intro n s _
    exact ⟨⟨[], List.nil_prefix, by simp [passes]⟩, fun _ _ _ => by simp [passes, visitsFrom]⟩
  | succ k ih =>
    intro n s hs
    rw [passes, if_neg (by rw [hs]; decide)]
    by_cases hc : cancelled s.polls
    · rw [if_pos hc]
      exact ⟨⟨[], List.nil_prefix, by simp⟩, fun _ _ h => by rw [h] at hc; cases hc⟩
    rw [if_neg hc]
    have hw := @walk_spec map cfg cancelled (n + 1)
      (startPass map cfg { s with polls := s.polls + 1 }) (startPass_inv n _) hs
    rw [startPass_owed] at hw
    simp only
    set s' := walk map cfg cancelled (n + 1) (startPass map cfg { s with polls := s.polls + 1 })
      with hs'
    rw [visitsFrom_succ]
    obtain ⟨done, hpre, hres⟩ := hw.part
    have hres' : s'.results = s.results ++ done.filterMap (visitPath map cfg) := hres
    by_cases hstop : s'.stop = true
    · -- a stopped pass: nothing more is recorded, and a limit or a cancel shows why
      have hend : (if s'.deeper then passes map cfg cancelled k (n + 1 + 1) s' else s') = s' := by
        split
        · cases k with
          | zero => rfl
          | succ k => rw [passes, if_pos hstop]
        · rfl
      rw [hend]
      refine ⟨⟨done, hpre.trans (List.prefix_append _ _), hres'⟩, fun h1 h2 h3 => ?_⟩
      rcases hw.stops hstop with h | h | ⟨j, h⟩
      · rw [h1] at h; cases h
      · rw [h2] at h; cases h
      · rw [h3] at h; cases h
    · have hns : s'.stop = false := by simpa using hstop
      obtain ⟨hwhole, hdeep, -, -⟩ := hw.whole hns
      have hwhole' : s'.results = s.results ++ (levelVisits map cfg n).filterMap (visitPath map cfg) :=
        hwhole
      by_cases hdeeper : s'.deeper = true
      · rw [if_pos hdeeper]
        have h := ih (n + 1) s' hns
        refine ⟨?_, fun h1 h2 h3 => ?_⟩
        · obtain ⟨d, hd, hr⟩ := h.part
          refine ⟨levelVisits map cfg n ++ d, (List.prefix_append_right_inj _).mpr hd, ?_⟩
          rw [hr, hwhole', List.filterMap_append, List.append_assoc]
        · rw [h.whole h1 h2 h3, hwhole', List.filterMap_append, List.append_assoc]
      · rw [if_neg hdeeper]
        have hnone : (levelVisits map cfg n).any Visit.fresh = false := by
          have : s'.deeper = false := by simpa using hdeeper
          rw [this] at hdeep
          simpa [startPass] using hdeep.symm
        rw [visitsFrom_eq_nil hnone, List.append_nil]
        exact ⟨⟨_, List.prefix_rfl, hwhole'⟩, fun _ _ _ => hwhole'⟩

end Walk

end CheatEngine
