import Mathlib.Data.List.Range
import Mathlib.Data.Nat.ModEq
import Mathlib.Tactic.Ring

/-!
# Searching a buffer at a fixed stride

A search tests a window of `size` elements at every multiple of `stride`.  It may go over the
positions in blocks (`blockScan`), and over the buffer in chunks that each own a run of
positions and read a little further.

* `mem_strideOffsets`, `strideOffsets_sorted` — **PROVED**: the positions, ascending;
* `blockScan_eq` — **PROVED**: blocks and their tail visit every position once;
* `chunked_scan` — **PROVED**: chunks that own whole strides find what the whole search finds;
* `ownedAt_sum` — **PROVED**: every position has one owner.
-/

namespace StridedScan

variable {α : Type*}

/-! ### Positions -/

/-- `for (off = 0; off < limit; off += stride)`. -/
def strideOffsets (limit stride : ℕ) : List ℕ :=
  (List.range ((limit + stride - 1) / stride)).map (· * stride)

theorem mem_strideOffsets {limit stride off : ℕ} (hs : 0 < stride) :
    off ∈ strideOffsets limit stride ↔ stride ∣ off ∧ off < limit := by
  rw [strideOffsets, List.mem_map]
  have hceil : ∀ k, k < (limit + stride - 1) / stride ↔ k * stride < limit := by
    intro k
    rw [Nat.lt_iff_add_one_le, Nat.le_div_iff_mul_le hs, Nat.add_mul, Nat.one_mul]
    omega
  refine ⟨?_, ?_⟩
  · rintro ⟨k, hk, rfl⟩
    exact ⟨Nat.dvd_mul_left stride k, (hceil k).mp (List.mem_range.mp hk)⟩
  · rintro ⟨⟨k, rfl⟩, hlt⟩
    rw [Nat.mul_comm] at hlt ⊢
    exact ⟨k, List.mem_range.mpr ((hceil k).mpr hlt), rfl⟩

theorem strideOffsets_sorted (limit : ℕ) {stride : ℕ} (hs : 0 < stride) :
    (strideOffsets limit stride).Pairwise (· < ·) := by
  rw [strideOffsets, List.pairwise_map]
  exact List.pairwise_lt_range.imp fun h => Nat.mul_lt_mul_of_pos_right h hs

@[simp] theorem strideOffsets_zero {stride : ℕ} (hs : 0 < stride) : strideOffsets 0 stride = [] := by
  rw [strideOffsets, Nat.div_eq_of_lt (by omega)]
  rfl

theorem strideOffsets_one (limit : ℕ) : strideOffsets limit 1 = List.range limit := by
  rw [strideOffsets, Nat.add_sub_cancel, Nat.div_one]
  simp

theorem strideOffsets_add {m stride : ℕ} (limit : ℕ) (hs : 0 < stride) (hm : stride ∣ m) :
    strideOffsets (m + limit) stride =
      strideOffsets m stride ++ (strideOffsets limit stride).map (m + ·) := by
  obtain ⟨k, rfl⟩ := hm
  have hk : (stride * k + stride - 1) / stride = k := by
    rw [show stride * k + stride - 1 = (stride - 1) + stride * k by omega,
      Nat.add_mul_div_left _ _ hs, Nat.div_eq_of_lt (by omega), Nat.zero_add]
  have hkl : (stride * k + limit + stride - 1) / stride = k + (limit + stride - 1) / stride := by
    rw [show stride * k + limit + stride - 1 = (limit + stride - 1) + stride * k by omega,
      Nat.add_mul_div_left _ _ hs, Nat.add_comm]
  rw [strideOffsets, hkl, strideOffsets, hk, strideOffsets, List.range_add, List.map_append,
    List.map_map, List.map_map]
  congr 1
  refine List.map_congr_left fun i _ => ?_
  simp only [Function.comp_apply]
  rw [Nat.add_mul, Nat.mul_comm k]

/-! ### Blocks -/

/-- Positions below `n` in blocks of `width`, which `block` searches at once, and the rest one
by one. -/
def blockScan (width n : ℕ) (block : ℕ → List ℕ) (test : ℕ → Bool) : List ℕ :=
  (List.range (n / width)).flatMap (fun k => block (k * width))
    ++ (List.range' (n / width * width) (n % width)).filter test

theorem range_blocks (width m : ℕ) :
    (List.range m).flatMap (fun k => List.range' (k * width) width) = List.range (m * width) := by
  induction m with
  | zero => simp
  | succ m ih =>
    rw [List.range_succ, List.flatMap_append, ih, List.flatMap_singleton, Nat.succ_mul,
      List.range_add, List.range'_eq_map_range]

theorem blockScan_eq {width n : ℕ} {block : ℕ → List ℕ} {test : ℕ → Bool}
    (h : ∀ k, k < n / width → block (k * width) = (List.range' (k * width) width).filter test) :
    blockScan width n block test = (List.range n).filter test := by
  have hblocks : (List.range (n / width)).flatMap (fun k => block (k * width)) =
      (List.range (n / width * width)).filter test := by
    rw [← range_blocks, List.filter_flatMap]
    exact List.flatMap_congr fun k hk => h k (List.mem_range.mp hk)
  have hsplit : List.range n = List.range (n / width * width)
      ++ List.range' (n / width * width) (n % width) := by
    rw [List.range'_eq_map_range, ← List.range_add, Nat.div_add_mod']
  rw [blockScan, hblocks, hsplit, List.filter_append]

/-! ### Chunks -/

/-- The positions of a buffer whose window passes the test.  With `whole`, a window must lie in
the buffer; otherwise it may be cut short, and `emit` bounds the positions. -/
def scanWindows (stride size : ℕ) (whole : Bool) (test : List α → Bool) (emit : ℕ)
    (buf : List α) : List ℕ :=
  (strideOffsets (if whole then buf.length + 1 - size else min emit buf.length) stride).filter
    fun off => test ((buf.drop off).take size)

/-- What the chunk at `o` owns of a span. -/
def ownedAt (owned span o : ℕ) : ℕ := min owned (span - o)

/-- What it reads: the owned positions and what a window needs behind the last of them. -/
def readLenAt (owned overlap span o : ℕ) : ℕ :=
  ownedAt owned span o + min overlap (span - o - ownedAt owned span o)

section Chunks

variable {stride size owned : ℕ} {whole : Bool} {test : List α → Bool}

theorem strideOffsets_single {span : ℕ} (hpos : 0 < span) (h : span ≤ owned) :
    strideOffsets span owned = [0] := by
  rw [strideOffsets, show (span + owned - 1) / owned = 1 from
    Nat.div_eq_of_lt_le (by omega) (by omega)]
  simp

theorem strideOffsets_first {span : ℕ} (ho : 0 < owned) (h : owned < span) :
    strideOffsets span owned = 0 :: (strideOffsets (span - owned) owned).map (owned + ·) := by
  rw [show span = owned + (span - owned) by omega, strideOffsets_add _ ho (Nat.dvd_refl _),
    strideOffsets_single ho (Nat.le_refl _), Nat.add_sub_cancel_left]
  rfl

/-- The positions of all chunks, clamped to `limit`, are the positions below it. -/
theorem chunked_offsets (hs : 0 < stride) (hdvd : stride ∣ owned) (ho : 0 < owned) (span limit : ℕ)
    (hlimit : limit ≤ span) :
    (strideOffsets span owned).flatMap (fun o =>
        (strideOffsets (min (ownedAt owned span o) (limit - o)) stride).map (o + ·)) =
      strideOffsets limit stride := by
  induction span using Nat.strong_induction_on generalizing limit with
  | _ span ih =>
    by_cases hspan : span = 0
    · have hl : limit = 0 := by omega
      rw [hspan, hl, strideOffsets_zero ho, strideOffsets_zero hs]
      rfl
    · by_cases hmore : owned < span
      · have hfirst : ownedAt owned span 0 = owned := by
          rw [ownedAt]
          omega
        have hrest := ih (span - owned) (by omega) (limit - owned) (by omega)
        have hshift : ∀ o, ownedAt owned span (owned + o) = ownedAt owned (span - owned) o := by
          intro o
          rw [ownedAt, ownedAt, Nat.sub_add_eq]
        rw [strideOffsets_first ho hmore, List.flatMap_cons, List.flatMap_map, hfirst]
        simp only [hshift, Nat.sub_add_eq]
        have htail : (strideOffsets (span - owned) owned).flatMap (fun o =>
            (strideOffsets (min (ownedAt owned (span - owned) o) (limit - owned - o)) stride).map
              (owned + o + ·)) = (strideOffsets (limit - owned) stride).map (owned + ·) := by
          rw [← hrest, List.map_flatMap]
          refine List.flatMap_congr fun o _ => ?_
          rw [List.map_map]
          refine List.map_congr_left fun x _ => ?_
          simp only [Function.comp_apply]
          omega
        rw [htail]
        by_cases hle : owned ≤ limit
        · rw [Nat.sub_zero, Nat.min_eq_left hle]
          have := strideOffsets_add (limit - owned) hs hdvd
          rw [show owned + (limit - owned) = limit by omega] at this
          rw [this]
          simp
        · rw [Nat.sub_zero, Nat.min_eq_right (by omega), show limit - owned = 0 by omega,
            strideOffsets_zero hs]
          simp
      · have hone := strideOffsets_single (Nat.pos_of_ne_zero hspan) (Nat.not_lt.mp hmore)
        have hw : min (ownedAt owned span 0) (limit - 0) = limit := by
          rw [ownedAt]
          omega
        rw [hone, List.flatMap_singleton, hw]
        simp

theorem chunk_scan (hsize : 0 < size) (hs : 0 < stride) (img : List α) {o : ℕ} (ho : 0 < owned)
    (hlt : o < img.length) :
    (scanWindows stride size whole test (ownedAt owned img.length o)
        ((img.drop o).take (readLenAt owned (size - 1) img.length o))).map (o + ·) =
      ((strideOffsets (min (ownedAt owned img.length o)
          ((if whole then img.length + 1 - size else img.length) - o)) stride).map (o + ·)).filter
        fun off => test ((img.drop off).take size) := by
  have hw : ownedAt owned img.length o ≤ img.length - o := Nat.min_le_right _ _
  have hw0 : 0 < ownedAt owned img.length o := by
    rw [ownedAt]
    omega
  set w := ownedAt owned img.length o
  have hread : readLenAt owned (size - 1) img.length o = w + min (size - 1) (img.length - o - w) := rfl
  have hlen : ((img.drop o).take (readLenAt owned (size - 1) img.length o)).length
      = w + min (size - 1) (img.length - o - w) := by
    rw [List.length_take, List.length_drop, hread]
    omega
  have hlimit : (if whole then w + min (size - 1) (img.length - o - w) + 1 - size
        else min w (w + min (size - 1) (img.length - o - w)))
      = min w ((if whole then img.length + 1 - size else img.length) - o) := by
    cases whole
    · simp only [Bool.false_eq_true, if_false]
      omega
    · simp only [if_true]
      omega
  rw [scanWindows, hlen, hlimit, List.filter_map]
  refine congrArg (List.map (o + ·)) (List.filter_congr fun off hoff => ?_)
  have hoff := ((mem_strideOffsets hs).mp hoff).2
  -- the window at an owned position lies in what was read, up to the end of the span
  have hwindow : (((img.drop o).take (readLenAt owned (size - 1) img.length o)).drop off).take size
      = (img.drop (o + off)).take size := by
    rw [List.drop_take, List.take_take, List.drop_drop, hread]
    by_cases hfull : size ≤ w + min (size - 1) (img.length - o - w) - off
    · rw [Nat.min_eq_left hfull]
    · have hlong : (img.drop (o + off)).length ≤ w + min (size - 1) (img.length - o - w) - off := by
        rw [List.length_drop]
        omega
      rw [Nat.min_eq_right (by omega), List.take_of_length_le hlong,
        List.take_of_length_le (le_trans hlong (by omega))]
  rw [hwindow]
  rfl

theorem chunked_scan (hsize : 0 < size) (hs : 0 < stride) (hdvd : stride ∣ owned) (ho : 0 < owned)
    (img : List α) :
    (strideOffsets img.length owned).flatMap (fun o =>
        (scanWindows stride size whole test (ownedAt owned img.length o)
          ((img.drop o).take (readLenAt owned (size - 1) img.length o))).map (o + ·)) =
      scanWindows stride size whole test img.length img := by
  have hchunk : ∀ o ∈ strideOffsets img.length owned,
      (scanWindows stride size whole test (ownedAt owned img.length o)
        ((img.drop o).take (readLenAt owned (size - 1) img.length o))).map (o + ·) =
      ((strideOffsets (min (ownedAt owned img.length o)
          ((if whole then img.length + 1 - size else img.length) - o)) stride).map (o + ·)).filter
        fun off => test ((img.drop off).take size) := fun o hmem =>
    chunk_scan hsize hs img ho ((mem_strideOffsets ho).mp hmem).2
  rw [List.flatMap_congr hchunk, ← List.filter_flatMap, chunked_offsets hs hdvd ho, scanWindows,
    Nat.min_self]
  split <;> omega

theorem scanWindows_short (hs : 0 < stride) {buf : List α} (h : buf.length < size) (emit : ℕ) :
    scanWindows stride size true test emit buf = [] := by
  rw [scanWindows, if_pos rfl, show buf.length + 1 - size = 0 by omega, strideOffsets_zero hs]
  rfl

theorem chunked_scan_short (hs : 0 < stride) (ho : 0 < owned) {img : List α} (hpos : 0 < img.length)
    (hshort : img.length < owned + size) :
    (strideOffsets img.length owned).flatMap (fun o =>
        (scanWindows stride size true test (ownedAt owned img.length o)
          ((img.drop o).take (readLenAt owned (size - 1) img.length o))).map (o + ·)) =
      scanWindows stride size true test img.length img := by
  have hfirst : (scanWindows stride size true test (ownedAt owned img.length 0)
      ((img.drop 0).take (readLenAt owned (size - 1) img.length 0))).map (0 + ·) =
      scanWindows stride size true test img.length img := by
    have hread : readLenAt owned (size - 1) img.length 0 = img.length := by
      rw [readLenAt, ownedAt]
      omega
    rw [hread, List.drop_zero, List.take_length]
    simp only [Nat.zero_add, List.map_id']
    rfl
  by_cases hmore : owned < img.length
  · have hrest : ((strideOffsets (img.length - owned) owned).map (owned + ·)).flatMap (fun o =>
        (scanWindows stride size true test (ownedAt owned img.length o)
          ((img.drop o).take (readLenAt owned (size - 1) img.length o))).map (o + ·)) = [] := by
      rw [List.flatMap_eq_nil_iff]
      intro o hmem
      obtain ⟨k, -, rfl⟩ := List.mem_map.mp hmem
      rw [scanWindows_short hs, List.map_nil]
      rw [List.length_take, List.length_drop]
      omega
    rw [strideOffsets_first ho hmore, List.flatMap_cons, hfirst, hrest, List.append_nil]
  · rw [strideOffsets_single hpos (Nat.not_lt.mp hmore), List.flatMap_singleton, hfirst]

theorem strideOffsets_length_le (limit : ℕ) (hs : 0 < stride) :
    (strideOffsets limit stride).length ≤ limit := by
  rw [strideOffsets, List.length_map, List.length_range]
  rcases Nat.eq_zero_or_pos limit with rfl | hpos
  · rw [Nat.div_eq_of_lt (by omega)]
  · refine Nat.div_le_of_le_mul ?_
    obtain ⟨a, rfl⟩ := Nat.exists_eq_add_of_lt hs
    obtain ⟨b, rfl⟩ := Nat.exists_eq_add_of_lt hpos
    have : (0 + a + 1) * (0 + b + 1) = a * b + a + b + 1 := by ring
    have := Nat.zero_le (a * b)
    omega

/-- The chunks own each position once. -/
theorem ownedAt_sum (ho : 0 < owned) (span : ℕ) :
    ((strideOffsets span owned).map (ownedAt owned span)).sum = span := by
  have hone := congrArg List.length (@chunked_offsets 1 owned Nat.one_pos (Nat.one_dvd _) ho
    span span (Nat.le_refl _))
  rw [List.length_flatMap, strideOffsets_one, List.length_range] at hone
  refine Eq.trans (congrArg List.sum (List.map_congr_left fun o _ => ?_)) hone
  rw [List.length_map, strideOffsets_one, List.length_range, ownedAt]
  omega

end Chunks

end StridedScan
