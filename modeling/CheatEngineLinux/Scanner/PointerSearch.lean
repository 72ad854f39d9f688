import CheatEngineLinux.Scanner.PointerChains

/-!
# A pointer scan is a breadth-first search

What a scan is for, in the map's own terms and without the search: a chain of entries whose
pointers land in each other's offset windows, ending in a slot the scan may use as a base.

* `linksTo` — the offset window by a walk over every entry;
* `IsChainTo` — a chain back from the target;
* `breadthFirst` — the levels of the search one after the other, by the linear window;
* `scan_paths` — **PROVED**: an uncancelled scan below its limits records one path for each
  chain of the breadth-first enumeration it does not skip, in that order.
-/

namespace CheatEngine

open ChainSearch

section Search

variable (map : PointerMap) (cfg : PointerScanConfig)

instance (address pointsTo : UInt64) : Decidable (InWindow cfg address pointsTo) :=
  inferInstanceAs (Decidable (_ ∧ _))

/-- The offset window of an address, by a walk over every entry. -/
def linksTo (address : UInt64) : List ℕ :=
  (List.range map.byTarget.length).filter fun i =>
    decide (InWindow cfg address (map.entry i).pointsTo)

theorem mem_linksTo (address : UInt64) (i : ℕ) :
    i ∈ linksTo map cfg address ↔
      i < map.byTarget.length ∧ InWindow cfg address (map.entry i).pointsTo := by
  simp [linksTo]

theorem linksTo_sorted (address : UInt64) : (linksTo map cfg address).Pairwise (· < ·) :=
  List.pairwise_lt_range.filter _

/-- The binary-searched window lists the same entries as the walk. -/
theorem outLinks_eq_linksTo (h0 : 0 ≤ cfg.maxOffset) : outLinks map cfg = linksTo map cfg := by
  funext address
  have hsorted : (outLinks map cfg address).Pairwise (· < ·) := List.pairwise_lt_range'
  have hmem : ∀ i, i ∈ outLinks map cfg address ↔ i ∈ linksTo map cfg address := by
    intro i
    have hle := window_le map cfg address
    rw [mem_linksTo, ← mem_window_iff h0, outLinks, List.mem_range'_1]
    omega
  have hperm : (outLinks map cfg address).Perm (linksTo map cfg address) :=
    (List.perm_ext_iff_of_nodup (hsorted.imp fun h => Nat.ne_of_lt h)
      ((linksTo_sorted map cfg address).imp fun h => Nat.ne_of_lt h)).mpr hmem
  exact hperm.eq_of_pairwise (fun a b _ _ h1 h2 => absurd h1 (Nat.lt_asymm h2)) hsorted
    (linksTo_sorted map cfg address)

/-- A chain back from the target: the first pointer lands in the target's window, every next
one in the window of the slot before it, and every slot but the last is new. -/
structure IsChainTo (c : List ℕ) : Prop where
  nonempty : c ≠ []
  bounds : ∀ i ∈ c, i < map.byTarget.length
  first : ∀ i, c.head? = some i → InWindow cfg cfg.targetAddress (map.entry i).pointsTo
  next : c.IsChain fun i j => InWindow cfg (map.entry i).locatedAt (map.entry j).pointsTo
  fresh : (cfg.targetAddress :: c.dropLast.map fun i => (map.entry i).locatedAt).Nodup

/-- Whether a chain ends where the scan records it: in a nameable module, or anywhere
without `staticOnly`. -/
def endsWell (c : List ℕ) : Bool :=
  !cfg.staticOnly || (nameable map.modules).any fun k =>
    (moduleAt map.modules k).holds (map.entry (c.getLastD 0)).locatedAt

def chainPath (c : List ℕ) : PointerPath :=
  let slot := (map.entry (c.getLastD 0)).locatedAt
  let offsets := (linkOffsets map cfg.targetAddress c).reverse
  match (nameable map.modules).find? fun k => (moduleAt map.modules k).holds slot with
  | some k =>
    { module := (moduleAt map.modules k).name, moduleBase := (moduleAt map.modules k).base,
      baseOffset := slot - (moduleAt map.modules k).base, offsets }
  | none => { module := "", moduleBase := 0, baseOffset := slot, offsets }

/-- The breadth-first enumeration: the chains of one link, of two links, and so on. -/
def breadthFirst : List (List ℕ) :=
  (List.range cfg.maxDepth.toNat).flatMap
    (level (linksTo map cfg) (slotOf map) [cfg.targetAddress]
      (linksTo map cfg cfg.targetAddress))

/-- Shorter chains first, chains of one length by their entry indices. -/
def ChainBefore (c c' : List ℕ) : Prop :=
  c.length < c'.length ∨ c.length = c'.length ∧ List.Lex (· < ·) c c'

theorem mem_level_iff (n : ℕ) (c : List ℕ) :
    c ∈ level (linksTo map cfg) (slotOf map) [cfg.targetAddress]
        (linksTo map cfg cfg.targetAddress) n ↔
      IsChainTo map cfg c ∧ c.length = n + 1 := by
  rw [← chainsOn_eq_level, mem_chainsOn]
  constructor
  · rintro ⟨⟨i, hi, hh⟩, hlen, hlink, hnd, hfresh⟩
    have hne : c ≠ [] := by
      rintro rfl
      simp at hlen
    refine ⟨⟨hne, ?_, ?_, ?_, ?_⟩, hlen⟩
    · -- the head is bounded by the window it comes from, the others by their predecessors'
      obtain ⟨a, l, rfl⟩ := List.exists_cons_of_ne_nil hne
      have ha : a = i := by simpa using hh
      subst ha
      have hb := ((mem_linksTo map cfg _ _).mp hi).1
      clear hi hh hlen hnd hfresh hne
      induction l generalizing a with
      | nil =>
        intro j hj
        rw [List.mem_singleton.mp hj]
        exact hb
      | cons b l ih =>
        intro j hj
        obtain ⟨h1, h2⟩ := List.isChain_cons_cons.mp hlink
        rcases List.mem_cons.mp hj with rfl | hj
        · exact hb
        · exact ih b h2 ((mem_linksTo map cfg _ _).mp h1).1 j hj
    · intro j hj
      rw [hh, Option.some.injEq] at hj
      subst hj
      exact ((mem_linksTo map cfg _ _).mp hi).2
    · exact hlink.imp fun a b h => ((mem_linksTo map cfg _ _).mp h).2
    · rw [List.nodup_cons]
      exact ⟨fun h => hfresh _ h (List.mem_singleton.mpr rfl), hnd⟩
  · rintro ⟨⟨hne, hb, hf, hnext, hfresh⟩, hlen⟩
    obtain ⟨a, l, rfl⟩ := List.exists_cons_of_ne_nil hne
    rw [List.nodup_cons] at hfresh
    refine ⟨⟨a, (mem_linksTo map cfg _ _).mpr ⟨hb a List.mem_cons_self, hf a rfl⟩, rfl⟩, hlen, ?_,
      hfresh.2, ?_⟩
    · rw [Linked, List.isChain_iff_getElem]
      rw [List.isChain_iff_getElem] at hnext
      intro k hk
      exact (mem_linksTo map cfg _ _).mpr ⟨hb _ (List.getElem_mem hk), hnext k hk⟩
    · intro x hx hmem
      rw [List.mem_singleton] at hmem
      subst hmem
      exact hfresh.1 hx

theorem mem_breadthFirst_iff (c : List ℕ) :
    c ∈ breadthFirst map cfg ↔ IsChainTo map cfg c ∧ (c.length : ℤ) ≤ cfg.maxDepth := by
  simp only [breadthFirst, List.mem_flatMap, List.mem_range, mem_level_iff]
  constructor
  · rintro ⟨n, hn, hc, hlen⟩
    exact ⟨hc, by omega⟩
  · rintro ⟨hc, hlen⟩
    have hpos := List.length_pos_of_ne_nil hc.nonempty
    exact ⟨c.length - 1, by omega, hc, by omega⟩

theorem breadthFirst_sorted : (breadthFirst map cfg).Pairwise ChainBefore := by
  rw [breadthFirst, List.pairwise_flatMap]
  refine ⟨fun n _ => ?_, List.pairwise_lt_range.imp fun {n m} hnm x hx y hy => ?_⟩
  · have hs : (chainsOn (linksTo map cfg) (slotOf map) n [cfg.targetAddress]
        (linksTo map cfg cfg.targetAddress)).Pairwise _ :=
      chainsOn_sorted (linksTo_sorted map cfg) n _ _ (linksTo_sorted map cfg _)
    rw [chainsOn_eq_level] at hs
    refine hs.imp_of_mem fun {x y} hx hy hxy => Or.inr ⟨?_, hxy⟩
    rw [((mem_level_iff map cfg n x).mp hx).2, ((mem_level_iff map cfg n y).mp hy).2]
  · refine Or.inl ?_
    rw [((mem_level_iff map cfg n x).mp hx).2, ((mem_level_iff map cfg m y).mp hy).2]
    omega

/-! ### The scan enumerates the same chains -/

theorem visitsFrom_eq (h0 : 0 ≤ cfg.maxOffset) :
    visitsFrom map cfg cfg.maxDepth.toNat 0 =
      (breadthFirst map cfg).map (visitOf map cfg.targetAddress [] [cfg.targetAddress]) := by
  rw [visitsFrom, breadthFirst, List.map_flatMap]
  apply List.flatMap_congr
  intro n _
  rw [levelVisits, levelChains, outLinks_eq_linksTo map cfg h0, chainsOn_eq_level, Nat.zero_add]

variable {map cfg}

theorem runnable_iff : cfg.runnable = true ↔
    0 < cfg.shardCount ∧ cfg.shardIndex < cfg.shardCount ∧ 0 < cfg.maxDepth ∧
      0 ≤ cfg.maxOffset := by
  simp only [PointerScanConfig.runnable, Bool.not_eq_true', Bool.or_eq_false_iff,
    beq_eq_false_iff_ne, decide_eq_false_iff_not, not_le, ge_iff_le, ne_eq, Int32.not_lt,
    Nat.pos_iff_ne_zero, and_assoc]

theorem scan_paths (hrun : cfg.runnable = true)
    (hr : (scanWithMap map cfg fun _ => false).limitResults = false)
    (hw : (scanWithMap map cfg fun _ => false).limitWork = false) :
    (scanWithMap map cfg fun _ => false).paths =
      (visitsFrom map cfg cfg.maxDepth.toNat 0).filterMap (visitPath map cfg) := by
  have h := @passes_spec map cfg (fun _ => false) cfg.maxDepth.toNat 0 initialWalk rfl
  simp only [scanWithMap, hrun, Bool.not_true, Bool.false_eq_true, if_false] at hr hw ⊢
  rw [h.whole hr hw (fun _ => rfl)]
  rfl

theorem mem_scan_paths {cancelled : ℕ → Bool} {p : PointerPath}
    (hp : p ∈ (scanWithMap map cfg cancelled).paths) :
    cfg.runnable = true ∧ ∃ v ∈ visitsFrom map cfg cfg.maxDepth.toNat 0,
      visitPath map cfg v = some p := by
  rw [scanWithMap] at hp
  by_cases hrun : cfg.runnable = true
  · simp only [hrun, Bool.not_true, Bool.false_eq_true, if_false] at hp
    obtain ⟨done, hpre, hres⟩ := (@passes_spec map cfg cancelled cfg.maxDepth.toNat 0
      initialWalk rfl).part
    split at hp
    · exact absurd hp List.not_mem_nil
    · rw [hres] at hp
      obtain ⟨v, hv, hvp⟩ := List.mem_filterMap.mp (by simpa [initialWalk] using hp)
      exact ⟨hrun, v, hpre.subset hv, hvp⟩
  · simp only [hrun, Bool.not_false, if_true] at hp
    exact absurd hp List.not_mem_nil

theorem visitPath_visitOf (hcount : cfg.shardCount ≤ 1) (c : List ℕ) :
    visitPath map cfg (visitOf map cfg.targetAddress [] [cfg.targetAddress] c) =
      if endsWell map cfg c then some (chainPath map cfg c) else none := by
  have hsh : decide (cfg.shardCount > 1) = false := by
    rw [decide_eq_false_iff_not]
    omega
  simp only [visitPath, visitOf, pathAt, endpoint, findModule_eq, chainPath, hsh,
    Bool.false_and, Bool.false_eq_true, if_false, List.append_nil]
  cases hf : (nameable map.modules).find?
      fun k => (moduleAt map.modules k).holds (map.entry (c.getLastD 0)).locatedAt with
  | some k =>
    have hk := List.find?_some hf
    have hend : endsWell map cfg c = true := by
      rw [endsWell, Bool.or_eq_true, List.any_eq_true]
      exact Or.inr ⟨k, List.mem_of_find?_eq_some hf, hk⟩
    rw [if_pos hend]
    rfl
  | none =>
    have hend : endsWell map cfg c = !cfg.staticOnly := by
      rw [endsWell, List.any_eq_false.mpr (List.find?_eq_none.mp hf), Bool.or_false]
    rw [hend]
    cases cfg.staticOnly <;> rfl

end Search

end CheatEngine
