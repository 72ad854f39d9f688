import Mathlib.Data.Set.Card
import CheatEngineLinux.Core.TargetMemory

/-!
# Searching for an array of bytes

The model of `findAobInRange` (`src/core/autoasm.cpp`), which `AOBSCANREGION` and `AOBSCANMODULE`
use: the part of each committed readable region in the range is read in chunks, each overlapping the
next by the pattern length less one byte.

* `noteMatch`, `searchChunk`, `searchChunks`, `findAobInRange`: the search, over any chunk size.
* `Matches`, `Hit`: what a match is, without chunks.
* `Exact`: the count is the number of hits, and the first match the lowest of them.

* **PROVED `searchChunks_eq`**: the chunks of a region find each of its hits once, in ascending
  order.
* **PROVED `aob_search_exact_iff`**: a search is exact if and only if no hit lies in a region that
  ends with the address space.
-/

namespace CheatEngine.AutoAssembler

open ByteOverlay

/-! ### The search -/

/-- `MemState`. -/
inductive MemState
  | free
  | committed
  deriving Repr, DecidableEq

/-- A region as `queryRegions` lists it. -/
structure ListedRegion extends MemoryRegion where
  state : MemState
  deriving Repr, DecidableEq

/-- The pattern and its mask; a pattern byte beyond the mask is compared whole. -/
structure AobPattern where
  bytes : List UInt8
  mask : List UInt8
  deriving Repr, DecidableEq

def AobPattern.size (p : AobPattern) : ℕ := p.bytes.length

/-- `m = i < mask.size() ? mask[i] : 0xFF` lets the byte pass for the one of the pattern. -/
def AobPattern.accepts (p : AobPattern) (i : ℕ) (b : UInt8) : Bool :=
  (b &&& p.mask.getD i 0xff) == (p.bytes.getD i 0 &&& p.mask.getD i 0xff)

def AobPattern.matchedAt (p : AobPattern) (buffer : List UInt8) (offset : ℕ) : Bool :=
  (List.range p.size).all fun i => p.accepts i (buffer.getD (offset + i) 0)

/-- `matches` and `firstMatch`. -/
structure Found where
  count : ℕ
  first : ℕ
  deriving Repr, DecidableEq

/-- `if (matches == 0) firstMatch = …; ++matches;` -/
def noteMatch (found : Found) (address : ℕ) : Found :=
  ⟨found.count + 1, if found.count = 0 then address else found.first⟩

/-- The first `limit` offsets of a buffer that was read at `chunkStart`. -/
def searchChunk (p : AobPattern) (chunkStart limit : ℕ) (buffer : List UInt8) (found : Found) :
    Found :=
  (List.range limit).foldl (fun found offset =>
    if p.matchedAt buffer offset then noteMatch found (chunkStart + offset) else found) found

/-- `for (chunkStart = regionStart; chunkStart < regionEnd;)`.  Every turn moves on by at least a
byte. -/
def searchChunks (read : ℕ → ℕ → Option (List UInt8)) (chunk : ℕ) (p : AobPattern)
    (regionEnd : ℕ) : ℕ → ℕ → Found → Found
  | 0, _, found => found
  | turns + 1, chunkStart, found =>
    if chunkStart < regionEnd then
      let want := min (chunk + p.size - 1) (regionEnd - chunkStart)
      match read chunkStart want with
      | none => found
      | some buffer =>
        if buffer.length < p.size then found
        else
          let limit := buffer.length - p.size + 1
          let found := searchChunk p chunkStart limit buffer found
          if buffer.length < want then found
          else searchChunks read chunk p regionEnd turns (chunkStart + limit) found
    else found

/-- One region.  `region.base + region.size` is a sum of machine words. -/
def searchRegion (read : ℕ → ℕ → Option (List UInt8)) (chunk start stop : ℕ) (p : AobPattern)
    (found : Found) (region : ListedRegion) : Found :=
  if region.state ≠ .committed ∨ region.protection.read = false then found
  else
    let regionStart := max region.base start
    let regionEnd := min ((region.base + region.size) % addressSpace) stop
    if regionEnd ≤ regionStart ∨ regionEnd - regionStart < p.size then found
    else searchChunks read chunk p regionEnd (regionEnd - regionStart) regionStart found

/-- `firstMatch` is what the caller's variable held before. -/
def findAobInRangeBy (chunk : ℕ) (read : ℕ → ℕ → Option (List UInt8))
    (regions : List ListedRegion) (start stop : ℕ) (p : AobPattern) (firstMatch : ℕ) : Found :=
  if p.size = 0 ∨ stop ≤ start then ⟨0, firstMatch⟩
  else regions.foldl (searchRegion read chunk start stop p) ⟨0, firstMatch⟩

/-- `constexpr size_t kChunk`. -/
def kChunk : ℕ := 16 * 2 ^ 20

def findAobInRange := findAobInRangeBy kChunk

/-! ### Hits -/

variable {mem : ℕ → UInt8} {read : ℕ → ℕ → Option (List UInt8)} {p : AobPattern}
  {chunk start stop : ℕ}

/-- The pattern is in the memory at the address. -/
def Matches (mem : ℕ → UInt8) (p : AobPattern) (a : ℕ) : Prop :=
  ∀ i, i < p.size → p.accepts i (mem (a + i)) = true

instance (mem : ℕ → UInt8) (p : AobPattern) : DecidablePred (Matches mem p) := fun a =>
  inferInstanceAs (Decidable (∀ i, i < p.size → p.accepts i (mem (a + i)) = true))

def ListedRegion.Searched (region : ListedRegion) : Prop :=
  region.state = .committed ∧ region.protection.read = true

structure Hit (mem : ℕ → UInt8) (p : AobPattern) (start stop : ℕ) (region : ListedRegion) (a : ℕ) :
    Prop where
  searched : region.Searched
  base : region.base ≤ a
  start : start ≤ a
  last : a + p.size ≤ region.base + region.size
  stop : a + p.size ≤ stop
  found : Matches mem p a

def hits (mem : ℕ → UInt8) (regions : List ListedRegion) (start stop : ℕ) (p : AobPattern) :
    Set ℕ :=
  {a | ∃ region ∈ regions, Hit mem p start stop region a}

structure Exact (hits : Set ℕ) (firstMatch : ℕ) (found : Found) : Prop where
  count : found.count = hits.ncard
  first : hits.Nonempty → IsLeast hits found.first
  none : hits = ∅ → found.first = firstMatch

def Ascending (regions : List ListedRegion) : Prop :=
  regions.Pairwise fun r r' => r.base + r.size ≤ r'.base

theorem Ascending.apart {regions : List ListedRegion} (h : Ascending regions) {r r' : ListedRegion}
    (hr : r ∈ regions) (hr' : r' ∈ regions) (hne : r ≠ r') :
    r.base + r.size ≤ r'.base ∨ r'.base + r'.size ≤ r.base := by
  induction regions with
  | nil => cases hr
  | cons first rest ih =>
    obtain ⟨hfirst, hrest⟩ := List.pairwise_cons.mp h
    rcases List.mem_cons.mp hr with h₁ | h₁ <;> rcases List.mem_cons.mp hr' with h₂ | h₂
    · exact absurd (h₁.trans h₂.symm) hne
    · exact .inl (h₁ ▸ hfirst _ h₂)
    · exact .inr (h₂ ▸ hfirst _ h₁)
    · exact ih hrest h₁ h₂

def ReadsAll (read : ℕ → ℕ → Option (List UInt8)) (mem : ℕ → UInt8) (region : ListedRegion) :
    Prop :=
  ∀ a n, region.base ≤ a → a + n ≤ region.base + region.size → read a n = some (slice mem a n)

/-! ### Chunks -/

def matchesFrom (mem : ℕ → UInt8) (p : AobPattern) (a n : ℕ) : List ℕ :=
  (List.range' a n).filter fun a => decide (Matches mem p a)

theorem mem_matchesFrom {a n x : ℕ} :
    x ∈ matchesFrom mem p a n ↔ (a ≤ x ∧ x < a + n) ∧ Matches mem p x := by
  simp [matchesFrom, List.mem_range'_1]

theorem matchesFrom_sorted (a n : ℕ) : (matchesFrom mem p a n).Pairwise (· < ·) :=
  (List.pairwise_lt_range' (s := a) (n := n)).filter _

theorem matchesFrom_add (a m n : ℕ) :
    matchesFrom mem p a (m + n) = matchesFrom mem p a m ++ matchesFrom mem p (a + m) n := by
  rw [matchesFrom, matchesFrom, matchesFrom, ← List.filter_append, List.range'_append_1]

theorem matchedAt_slice {a n offset : ℕ} (h : offset + p.size ≤ n) :
    p.matchedAt (slice mem a n) offset = decide (Matches mem p (a + offset)) := by
  rw [Bool.eq_iff_iff, decide_eq_true_iff, AobPattern.matchedAt, List.all_eq_true]
  refine forall_congr' fun i => ?_
  rw [List.mem_range]
  refine imp_congr_right fun hi => ?_
  rw [slice, List.getD_eq_getElem?_getD, List.getElem?_map, List.getElem?_range (by omega),
    Option.map_some, Option.getD_some, Nat.add_assoc]

theorem searchChunk_eq {chunkStart limit n : ℕ} (h : limit + p.size ≤ n + 1) (found : Found) :
    searchChunk p chunkStart limit (slice mem chunkStart n) found =
      (matchesFrom mem p chunkStart limit).foldl noteMatch found := by
  rw [matchesFrom, List.range'_eq_map_range, List.filter_map, List.foldl_map, List.foldl_filter,
    searchChunk]
  refine List.foldl_ext _ _ _ fun found offset hoffset => ?_
  rw [matchedAt_slice (by rw [List.mem_range] at hoffset; omega)]
  rfl

theorem searchChunks_eq (hchunk : 0 < chunk) (hp : 0 < p.size) {regionEnd turns chunkStart : ℕ}
    (hturns : regionEnd - chunkStart ≤ turns)
    (hread : ∀ a n, chunkStart ≤ a → a + n ≤ regionEnd → read a n = some (slice mem a n))
    (found : Found) :
    searchChunks read chunk p regionEnd turns chunkStart found =
      (matchesFrom mem p chunkStart (regionEnd + 1 - p.size - chunkStart)).foldl noteMatch
        found := by
  induction turns generalizing chunkStart found with
  | zero =>
    rw [show regionEnd + 1 - p.size - chunkStart = 0 by omega]
    rfl
  | succ turns ih =>
    rw [searchChunks]
    split
    · rename_i hlt
      dsimp only
      rw [hread chunkStart _ (Nat.le_refl _) (by omega)]
      dsimp only
      rw [slice_length]
      split
      · rw [show regionEnd + 1 - p.size - chunkStart = 0 by omega]
        rfl
      · rename_i hlong
        rw [if_neg (Nat.lt_irrefl _), searchChunk_eq (by omega),
          ih (by omega) fun a n ha => hread a n (by omega), ← List.foldl_append,
          ← matchesFrom_add]
        congr 2
        omega
    · rw [show regionEnd + 1 - p.size - chunkStart = 0 by omega]
      rfl

/-! ### Regions -/

def regionHits (mem : ℕ → UInt8) (p : AobPattern) (start stop : ℕ) (region : ListedRegion) :
    List ℕ :=
  if region.state ≠ .committed ∨ region.protection.read = false then []
  else matchesFrom mem p (max region.base start)
    (min (region.base + region.size) stop + 1 - p.size - max region.base start)

theorem mem_regionHits {region : ListedRegion} {a : ℕ} :
    a ∈ regionHits mem p start stop region ↔ Hit mem p start stop region a := by
  unfold regionHits
  split
  · rename_i h
    refine iff_of_false List.not_mem_nil fun hit => ?_
    obtain ⟨hstate, hprot⟩ := hit.searched
    rcases h with h | h
    · exact h hstate
    · rw [hprot] at h
      cases h
  · rename_i h
    push Not at h
    rw [mem_matchesFrom]
    constructor
    · rintro ⟨hin, hfound⟩
      exact ⟨⟨h.1, by simpa using h.2⟩, by omega, by omega, by omega, by omega, hfound⟩
    · intro hit
      obtain ⟨-, h₁, h₂, h₃, h₄, hfound⟩ := hit
      exact ⟨by omega, hfound⟩

theorem regionHits_sorted (region : ListedRegion) :
    (regionHits mem p start stop region).Pairwise (· < ·) := by
  unfold regionHits
  split
  · exact List.Pairwise.nil
  · exact matchesFrom_sorted _ _

theorem searchRegion_eq (hchunk : 0 < chunk) (hp : 0 < p.size) {region : ListedRegion}
    (hend : region.base + region.size < addressSpace)
    (hread : region.Searched → ReadsAll read mem region) (found : Found) :
    searchRegion read chunk start stop p found region =
      (regionHits mem p start stop region).foldl noteMatch found := by
  unfold searchRegion regionHits
  split
  · rfl
  · rename_i h
    push Not at h
    have hreads := hread ⟨h.1, by simpa using h.2⟩
    dsimp only
    rw [Nat.mod_eq_of_lt hend]
    split
    · rw [show min (region.base + region.size) stop + 1 - p.size - max region.base start = 0 by
        omega]
      rfl
    · exact searchChunks_eq hchunk hp (Nat.le_refl _)
        (fun a n ha hn => hreads a n (by omega) (by omega)) found

theorem searchRegion_last {region : ListedRegion}
    (hend : region.base + region.size = addressSpace) (found : Found) :
    searchRegion read chunk start stop p found region = found := by
  unfold searchRegion
  split
  · rfl
  · dsimp only
    rw [hend, Nat.mod_self, Nat.zero_min, if_pos (.inl (Nat.zero_le _))]

/-- The regions that the search goes through. -/
def inside (regions : List ListedRegion) : List ListedRegion :=
  regions.filter fun region => decide (region.base + region.size < addressSpace)

theorem findAobInRange_eq (hchunk : 0 < chunk) (hp : 0 < p.size) {regions : List ListedRegion}
    (hfits : ∀ r ∈ regions, r.base + r.size ≤ addressSpace)
    (hread : ∀ r ∈ regions, r.Searched → ReadsAll read mem r) (firstMatch : ℕ) :
    findAobInRangeBy chunk read regions start stop p firstMatch =
      ((inside regions).flatMap (regionHits mem p start stop)).foldl noteMatch
        ⟨0, firstMatch⟩ := by
  have hfold : ∀ found, regions.foldl (searchRegion read chunk start stop p) found =
      ((inside regions).flatMap (regionHits mem p start stop)).foldl noteMatch found := by
    induction regions with
    | nil => exact fun _ => rfl
    | cons r regions ih =>
      intro found
      have hr := hfits r List.mem_cons_self
      have hrest := ih (fun r hr => hfits r (List.mem_cons_of_mem _ hr)) fun r hr =>
        hread r (List.mem_cons_of_mem _ hr)
      rw [List.foldl_cons, inside, List.filter_cons]
      by_cases hend : r.base + r.size < addressSpace
      · rw [if_pos (by simpa using hend), List.flatMap_cons, List.foldl_append, ← inside,
          searchRegion_eq hchunk hp hend (hread r List.mem_cons_self), hrest]
      · rw [if_neg (by simpa using hend), ← inside, searchRegion_last (by omega), hrest]
  unfold findAobInRangeBy
  split
  · rename_i h
    have hnone : (inside regions).flatMap (regionHits mem p start stop) = [] := by
      rw [List.flatMap_eq_nil_iff]
      intro r _
      refine List.eq_nil_iff_forall_not_mem.mpr fun a ha => ?_
      have hit := mem_regionHits.mp ha
      have h₁ := hit.start
      have h₂ := hit.stop
      omega
    rw [hnone]
    rfl
  · exact hfold _

/-! ### Counting -/

theorem foldl_noteMatch (addresses : List ℕ) (found : Found) (hpos : 0 < found.count) :
    addresses.foldl noteMatch found = ⟨found.count + addresses.length, found.first⟩ := by
  induction addresses generalizing found with
  | nil => rfl
  | cons a addresses ih =>
    rw [List.foldl_cons, ih _ (Nat.succ_pos _)]
    simp only [noteMatch, List.length_cons, Found.mk.injEq]
    exact ⟨by omega, if_neg (by omega)⟩

theorem foldl_noteMatch_start (addresses : List ℕ) (firstMatch : ℕ) :
    addresses.foldl noteMatch ⟨0, firstMatch⟩ =
      ⟨addresses.length, addresses.head?.getD firstMatch⟩ := by
  cases addresses with
  | nil => rfl
  | cons a addresses =>
    rw [List.foldl_cons, foldl_noteMatch _ _ (Nat.succ_pos _)]
    simp only [noteMatch, List.length_cons, Found.mk.injEq]
    exact ⟨by omega, by simp⟩

theorem exact_of_sorted {addresses : List ℕ} (hsorted : addresses.Pairwise (· < ·))
    (firstMatch : ℕ) :
    Exact {a | a ∈ addresses} firstMatch (addresses.foldl noteMatch ⟨0, firstMatch⟩) := by
  rw [foldl_noteMatch_start]
  refine ⟨?_, ?_, ?_⟩
  · rw [← List.coe_toFinset, Set.ncard_coe_finset,
      List.toFinset_card_of_nodup (hsorted.imp fun h => Nat.ne_of_lt h)]
  · rintro ⟨a, ha⟩
    cases addresses with
    | nil => exact absurd ha List.not_mem_nil
    | cons first rest =>
      refine ⟨List.mem_cons_self, fun b hb => ?_⟩
      rcases List.mem_cons.mp hb with rfl | hb
      · exact Nat.le_refl _
      · exact Nat.le_of_lt ((List.pairwise_cons.mp hsorted).1 b hb)
  · intro h
    rw [List.eq_nil_iff_forall_not_mem.mpr fun a ha => (h ▸ ha : a ∈ (∅ : Set ℕ))]
    rfl

theorem flatMap_hits_sorted (hp : 0 < p.size) {regions : List ListedRegion}
    (hascending : Ascending regions) :
    (regions.flatMap (regionHits mem p start stop)).Pairwise (· < ·) := by
  rw [List.flatMap_def, List.pairwise_flatten, List.pairwise_map, List.forall_mem_map]
  refine ⟨fun r _ => regionHits_sorted r, hascending.imp fun {r r'} h a ha b hb => ?_⟩
  have h₁ := (mem_regionHits.mp ha).last
  have h₂ := (mem_regionHits.mp hb).base
  omega

theorem mem_flatMap_hits {regions : List ListedRegion} {a : ℕ} :
    a ∈ regions.flatMap (regionHits mem p start stop) ↔ a ∈ hits mem regions start stop p := by
  simp only [List.mem_flatMap, mem_regionHits]
  exact Iff.rfl

/-- **The search is exact** if and only if no hit lies in a region that ends with the address
space, whatever the chunk size. -/
theorem aob_search_exact_iff {regions : List ListedRegion} {firstMatch : ℕ} (hchunk : 0 < chunk)
    (hp : 0 < p.size) (hascending : Ascending regions)
    (hfits : ∀ r ∈ regions, r.base + r.size ≤ addressSpace)
    (hread : ∀ r ∈ regions, r.Searched → ReadsAll read mem r) :
    Exact (hits mem regions start stop p) firstMatch
        (findAobInRangeBy chunk read regions start stop p firstMatch) ↔
      ∀ r ∈ regions, r.base + r.size = addressSpace → ∀ a, ¬Hit mem p start stop r a := by
  rw [findAobInRange_eq hchunk hp hfits hread]
  have hsubset : hits mem (inside regions) start stop p ⊆ hits mem regions start stop p :=
    fun a ⟨r, hr, hit⟩ => ⟨r, (List.mem_filter.mp hr).1, hit⟩
  have hexact : Exact (hits mem (inside regions) start stop p) firstMatch
      (((inside regions).flatMap (regionHits mem p start stop)).foldl noteMatch
        ⟨0, firstMatch⟩) := by
    have hinside : Ascending (inside regions) := hascending.filter _
    have hsorted := exact_of_sorted
      (@flatMap_hits_sorted mem p start stop hp _ hinside) firstMatch
    rwa [show {a | a ∈ (inside regions).flatMap (regionHits mem p start stop)} =
      hits mem (inside regions) start stop p from Set.ext fun a => mem_flatMap_hits] at hsorted
  have hfinite : (hits mem regions start stop p).Finite := by
    refine (List.finite_toSet (regions.flatMap (regionHits mem p start stop))).subset ?_
    exact fun a ha => mem_flatMap_hits.mpr ha
  constructor
  · intro h r hr hend a hit
    have hall := Set.eq_of_subset_of_ncard_le hsubset
      (le_of_eq (h.count.symm.trans hexact.count)) hfinite
    obtain ⟨r', hr', hit'⟩ : a ∈ hits mem (inside regions) start stop p := by
      rw [hall]
      exact ⟨r, hr, hit⟩
    obtain ⟨hr', hinside⟩ := List.mem_filter.mp hr'
    have hne : r' ≠ r := by
      rintro rfl
      exact absurd (of_decide_eq_true hinside) (by omega)
    have h₁ := hit.base
    have h₂ := hit.last
    have h₃ := hit'.base
    have h₄ := hit'.last
    have hapart := hascending.apart hr' hr hne
    omega
  · intro hnone
    rwa [show hits mem regions start stop p = hits mem (inside regions) start stop p from
      Set.Subset.antisymm (fun a ⟨r, hr, hit⟩ => ?_) hsubset]
    refine ⟨r, List.mem_filter.mpr ⟨hr, decide_eq_true ?_⟩, hit⟩
    have hle := hfits r hr
    have hne : r.base + r.size ≠ addressSpace := fun hend => hnone r hr hend a hit
    omega

/-- Two bytes that the mask reduces to their high halves, in a region of sixteen bytes. -/
theorem aob_search_exact_low_page :
    Exact (hits (fun a => UInt8.ofNat a) [⟨⟨0x1000, 16, MemProt.all⟩, .committed⟩] 0x1000 0x2000
        ⟨[0x05, 0x06], [0xf0]⟩) 7
      (findAobInRangeBy 3 (fun a n => some (slice (fun a => UInt8.ofNat a) a n))
        [⟨⟨0x1000, 16, MemProt.all⟩, .committed⟩] 0x1000 0x2000 ⟨[0x05, 0x06], [0xf0]⟩ 7) := by
  refine (aob_search_exact_iff (by decide) (by decide) (List.pairwise_singleton _ _) ?_ ?_).mpr ?_
  · simp [addressSpace]
  · exact fun _ _ _ _ _ _ _ => rfl
  · simp [addressSpace]

/-- A match in the last region of the address space is not found. -/
theorem aob_search_misses_last_region :
    ¬ ∀ mem regions p start stop firstMatch, 0 < AobPattern.size p → Ascending regions →
      (∀ r ∈ regions, r.base + r.size ≤ addressSpace) →
      Exact (hits mem regions start stop p) firstMatch
        (findAobInRange (fun a n => some (slice mem a n)) regions start stop p firstMatch) := by
  intro h
  have hexact := h (fun _ => 0) [⟨⟨2 ^ 64 - 16, 16, MemProt.all⟩, .committed⟩] ⟨[0], []⟩
    (2 ^ 64 - 16) (2 ^ 64 - 1) 0 (by decide) (List.pairwise_singleton _ _) (by simp [addressSpace])
  have hfirst : (findAobInRange (fun a n => some (slice (fun _ => 0) a n))
      [⟨⟨2 ^ 64 - 16, 16, MemProt.all⟩, .committed⟩] (2 ^ 64 - 16) (2 ^ 64 - 1) ⟨[0], []⟩ 0).first =
      0 := by decide
  have hleast := hexact.first ⟨2 ^ 64 - 16, _, List.mem_singleton_self _, ⟨rfl, rfl⟩, by decide,
    by decide, by decide, by decide, by decide⟩
  rw [hfirst] at hleast
  obtain ⟨r, hr, hit⟩ := hleast.1
  rw [List.mem_singleton] at hr
  subst hr
  exact absurd hit.base (by decide)

end CheatEngine.AutoAssembler
