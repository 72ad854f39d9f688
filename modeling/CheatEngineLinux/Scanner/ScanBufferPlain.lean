import CheatEngineLinux.Scanner.ScanBuffer

/-!
# Every search of a buffer is a plain one

A plain search tests each position of the stride by itself, with the bytes there.

* `scanIntegerTarget_eq` — **PROVED**: lanes, the reversed needle and the scalar loop find the
  positions whose integer compares;
* `scanBufferString_eq`, `scanBufferAOB_eq` — **PROVED**: anchors lose nothing;
* `vector_search_is_plain` — **PROVED**: vectors and anchors find what the scalar loops find;
* `scanRegion_plain` — **PROVED**: the search for any configuration is `plainScan`.
-/

namespace CheatEngine

open RecordFile StridedScan

/-! ### Integers and their bytes -/

namespace IntType

variable {t : IntType}

theorem modulus_eq (t : IntType) : t.modulus = 256 ^ t.size := by
  rw [modulus, pow_mul]
  norm_num

theorem modulus_pos (t : IntType) : 0 < t.modulus := by
  rw [modulus]
  positivity

theorem cast_emod (t : IntType) (v : ℤ) : t.cast v % t.modulus = v % t.modulus := by
  rw [cast]
  split
  · exact Int.bmod_emod
  · exact Int.emod_emod_of_dvd v (dvd_refl _)

theorem cast_eq_cast {a b : ℤ} : t.cast a = t.cast b ↔ a % t.modulus = b % t.modulus := by
  refine ⟨fun h => by rw [← cast_emod, h, cast_emod], fun h => ?_⟩
  rw [cast, cast]
  split
  · rw [← Int.emod_bmod, h, Int.emod_bmod]
  · exact h

@[simp] theorem cast_cast (t : IntType) (v : ℤ) : t.cast (t.cast v) = t.cast v :=
  cast_eq_cast.mpr (cast_emod t v)

def bits (t : IntType) (v : ℤ) : ℕ := (v % t.modulus).toNat

theorem bits_lt (t : IntType) (v : ℤ) : t.bits v < 256 ^ t.size := by
  have hpos := t.modulus_pos
  have h := Int.emod_lt_of_pos v (show (0 : ℤ) < t.modulus by exact_mod_cast hpos)
  rw [bits, ← modulus_eq]
  omega

theorem cast_natCast_eq {n : ℕ} (hn : n < 256 ^ t.size) {v : ℤ} (hv : t.cast v = v) :
    t.cast n = v ↔ n = t.bits v := by
  rw [← hv, cast_eq_cast, cast_emod, ← modulus_eq] at *
  have hpos : (0 : ℤ) < t.modulus := by exact_mod_cast t.modulus_pos
  rw [Int.emod_eq_of_lt (by omega) (by exact_mod_cast hn), bits, cast_emod]
  have := Int.emod_nonneg v (show (t.modulus : ℤ) ≠ 0 by omega)
  omega

theorem scalarBytes_length {bytes : List UInt8} {n : ℕ} (h : n ≤ bytes.length)
    (order : ByteOrder) : (scalarBytes n bytes order).length = n := by
  rw [scalarBytes]
  split
  · rw [List.length_take]
    omega
  · rw [List.length_reverse, List.length_take]
    omega

theorem read_eq_iff {bytes : List UInt8} (h : t.size ≤ bytes.length) (order : ByteOrder) {v : ℤ}
    (hv : t.cast v = v) :
    t.read bytes order = v ↔ scalarBytes t.size bytes order = leBytes t.size (t.bits v) := by
  have hlen := scalarBytes_length h order
  have hlt := leNat_lt (scalarBytes t.size bytes order)
  rw [hlen] at hlt
  rw [read, cast_natCast_eq hlt hv, leNat_eq_iff hlen (bits_lt t v)]

theorem cast_swap (t : IntType) (v : ℤ) : t.cast (t.swap v) = t.swap v := cast_cast t _

theorem bits_swap (t : IntType) (v : ℤ) :
    leBytes t.size (t.bits (t.swap v)) = (leBytes t.size (t.bits v)).reverse := by
  have hlt : leNat (leBytes t.size (t.bits v)).reverse < 256 ^ t.size := by
    have := leNat_lt (leBytes t.size (t.bits v)).reverse
    rwa [List.length_reverse, leBytes_length] at this
  have hbits : t.bits (t.swap v) = leNat (leBytes t.size (t.bits v)).reverse := by
    rw [bits, swap, cast_emod]
    rw [← modulus_eq] at hlt
    rw [Int.emod_eq_of_lt (by omega) (by exact_mod_cast hlt)]
    rfl
  have := leBytes_leNat (leBytes t.size (t.bits v)).reverse
  rw [List.length_reverse, leBytes_length] at this
  rw [hbits, this]

theorem read_swap {bytes : List UInt8} (h : t.size ≤ bytes.length) {order : ByteOrder}
    (ho : order ≠ nativeScanByteOrder) {v : ℤ} (hv : t.cast v = v) :
    t.read bytes nativeScanByteOrder = t.swap v ↔ t.read bytes order = v := by
  rw [read_eq_iff h _ (cast_swap t v), read_eq_iff h _ hv, bits_swap, scalarBytes, if_pos rfl,
    scalarBytes, if_neg ho, List.reverse_eq_iff]

theorem read_byte (ht : t.size = 1) (bytes : List UInt8) (order order' : ByteOrder) :
    t.read bytes order = t.read bytes order' := by
  have hone : ∀ o, scalarBytes 1 bytes o = bytes.take 1 := by
    intro o
    rw [scalarBytes]
    split
    · rfl
    · cases bytes <;> rfl
  rw [read, read, ht, hone, hone]

end IntType

/-! ### Integer searches -/

theorem stride_eq (alignment : ℕ) : (if alignment = 0 then 1 else alignment) = max 1 alignment := by
  split <;> omega

/-- A loop over the positions where `size` bytes fit, and nothing where none do. -/
theorem guarded_offsets (len size stride : ℕ) (hs : 0 < stride) (test : ℕ → Bool) :
    (if len < size then [] else (strideOffsets (len - size + 1) stride).filter test) =
      (strideOffsets (len + 1 - size) stride).filter test := by
  split
  · rw [show len + 1 - size = 0 by omega, strideOffsets_zero hs]
    rfl
  · rw [show len - size + 1 = len + 1 - size by omega]

theorem blockLanes_eq (size width first : ℕ) (hsize : 0 < size) (equal : ℕ → Bool) :
    emitMaskLanes size width first (movemask size fun lane => equal (first + lane)) =
      (List.range' first width).filter equal := by
  rw [emitMaskLanes, List.range'_eq_map_range, List.filter_map]
  refine congrArg (List.map (first + ·)) (List.filter_congr fun lane _ => ?_)
  rw [movemask, Nat.mul_div_cancel _ hsize]
  rfl

section Integer

variable {t : IntType} {buf : List UInt8}

theorem scanExactVector_eq (bytes : ℕ) (ht : 0 < t.size) {nLanes : ℕ}
    (hn : nLanes * t.size ≤ buf.length) {needle : ℤ} (hv : t.cast needle = needle) :
    scanExactVector bytes t buf nLanes needle = (List.range nLanes).filter fun i =>
      t.read (buf.drop (i * t.size)) nativeScanByteOrder == needle := by
  rw [scanExactVector]
  refine blockScan_eq fun k hk => ?_
  rw [blockLanes_eq t.size (bytes / t.size) (k * (bytes / t.size)) ht fun j =>
    (buf.drop (j * t.size)).take t.size == leBytes t.size (needle % t.modulus).toNat]
  refine List.filter_congr fun j hj => ?_
  -- the lane lies in the buffer
  have hj : j < nLanes := by
    rw [List.mem_range'_1] at hj
    have hblock : (k + 1) * (bytes / t.size) ≤ nLanes :=
      le_trans (Nat.mul_le_mul_right _ hk) (Nat.div_mul_le_self _ _)
    rw [Nat.add_mul, Nat.one_mul] at hblock
    omega
  have hfit : t.size ≤ (buf.drop (j * t.size)).length := by
    have : (j + 1) * t.size ≤ nLanes * t.size := Nat.mul_le_mul_right _ hj
    rw [Nat.add_mul, Nat.one_mul] at this
    rw [List.length_drop]
    omega
  have hread := IntType.read_eq_iff hfit nativeScanByteOrder hv
  rw [scalarBytes, if_pos rfl, IntType.bits] at hread
  rw [Bool.eq_iff_iff, beq_iff_eq, beq_iff_eq, hread]

theorem scanExactInteger_eq (mode : SimdMode) (ht : 0 < t.size) (alignment : ℕ) {needle : ℤ}
    (hv : t.cast needle = needle) :
    scanExactInteger mode t buf alignment needle =
      (strideOffsets (buf.length + 1 - t.size) (max 1 alignment)).filter fun off =>
        t.read (buf.drop off) nativeScanByteOrder == needle := by
  rw [scanExactInteger, stride_eq, ← guarded_offsets _ _ _ (by omega)]
  split
  · rfl
  · rename_i hlen
    dsimp only
    split
    · rename_i halign
      set nLanes := (buf.length - t.size) / t.size + 1 with hnLanes
      have hfit : nLanes * t.size ≤ buf.length := by
        rw [hnLanes, Nat.add_mul, Nat.one_mul]
        have := Nat.div_mul_le_self (buf.length - t.size) t.size
        omega
      have hoffsets : strideOffsets (buf.length - t.size + 1) (max 1 alignment)
          = (List.range nLanes).map (· * t.size) := by
        rw [halign, strideOffsets, show buf.length - t.size + 1 + t.size - 1
          = buf.length - t.size + t.size by omega, Nat.add_div_right _ ht]
      have hscalar : ((List.range nLanes).filter fun i =>
            t.read (buf.drop (i * t.size)) nativeScanByteOrder == needle).map (· * t.size)
          = ((List.range nLanes).map (· * t.size)).filter fun off =>
            t.read (buf.drop off) nativeScanByteOrder == needle := by
        rw [List.filter_map]
        rfl
      rw [hoffsets, ← hscalar]
      congr 1
      cases mode with
      | avx2 => exact scanExactVector_eq 32 ht hfit hv
      | sse2 =>
        dsimp only
        split
        · exact scanExactVector_eq 16 ht hfit hv
        · rfl
      | scalar => rfl
    · rfl

theorem scanIntegerTarget_eq (mode : SimdMode) (ht : 0 < t.size) (alignment : ℕ) {value : ℤ}
    (hv : t.cast value = value) (value2 : ℤ) (compare : ScanCompare) (order : ByteOrder) :
    scanIntegerTarget mode t buf alignment value value2 compare order =
      (strideOffsets (buf.length + 1 - t.size) (max 1 alignment)).filter fun off =>
        getCompare compare (t.read (buf.drop off) order) value value2 := by
  have hrel : ∀ o, (t.size = 1 ∨ o = order) →
      scanRelational t buf alignment value value2 compare o =
        (strideOffsets (buf.length + 1 - t.size) (max 1 alignment)).filter fun off =>
          getCompare compare (t.read (buf.drop off) order) value value2 := by
    intro o ho
    rw [scanRelational, stride_eq, guarded_offsets _ _ _ (by omega)]
    refine List.filter_congr fun off _ => ?_
    rcases ho with h1 | rfl
    · rw [IntType.read_byte h1 _ o order]
    · rfl
  rw [scanIntegerTarget]
  by_cases hnative : (decide (t.size = 1) || decide (order = nativeScanByteOrder)) = true
  · rw [if_pos hnative]
    simp only [Bool.or_eq_true, decide_eq_true_eq] at hnative
    split
    · rename_i hexact
      rw [scanExactInteger_eq mode ht alignment hv, hexact]
      refine List.filter_congr fun off _ => ?_
      rcases hnative with h1 | rfl
      · rw [IntType.read_byte h1 _ nativeScanByteOrder order]
        rfl
      · rfl
    · exact hrel _ (hnative.imp id Eq.symm)
  · rw [if_neg hnative]
    simp only [Bool.or_eq_true, decide_eq_true_eq, not_or] at hnative
    split
    · rename_i hexact
      rw [scanExactInteger_eq mode ht alignment (IntType.cast_swap t value), hexact]
      refine List.filter_congr fun off hoff => ?_
      have hlt := ((mem_strideOffsets (by omega)).mp hoff).2
      have hfit : t.size ≤ (buf.drop off).length := by
        rw [List.length_drop]
        omega
      have hswap := IntType.read_swap hfit hnative.2 hv
      rw [getCompare, Bool.eq_iff_iff, beq_iff_eq, beq_iff_eq, hswap]
    · exact hrel _ (Or.inr rfl)

end Integer

/-! ### Anchored searches -/

theorem anchorScan_eq (mode : SimdMode) (buf : List UInt8) (startPos endPos : ℕ) (anchor : UInt8) :
    anchorScan mode buf startPos endPos anchor =
      ((List.range (endPos - startPos)).filter fun k => buf.getD (startPos + k) 0 == anchor).map
        (startPos + ·) := by
  rw [anchorScan]
  congr 1
  split
  · rfl
  · exact blockScan_eq fun _ _ => rfl

theorem anchored_filter (mode : SimdMode) (buf : List UInt8) (idx limit : ℕ) (anchor : UInt8)
    (test : ℕ → Bool) (h : ∀ off < limit, test off = true → buf.getD (idx + off) 0 = anchor) :
    ((anchorScan mode buf idx (limit + idx) anchor).map (· - idx)).filter test =
      (List.range limit).filter test := by
  rw [anchorScan_eq, List.map_map, Nat.add_sub_cancel]
  have hid : ((· - idx) ∘ (idx + ·)) = (id : ℕ → ℕ) := by
    funext k
    simp
  rw [hid, List.map_id, List.filter_filter]
  refine List.filter_congr fun off hoff => ?_
  cases htest : test off
  · rfl
  · rw [h off (List.mem_range.mp hoff) htest]
    simp

theorem scanBufferString_eq (mode : SimdMode) (buf needle : List UInt8) (caseInsensitive : Bool) :
    scanBufferString mode buf needle caseInsensitive =
      (strideOffsets (buf.length + 1 - max 1 needle.length) 1).filter fun off =>
        !needle.isEmpty && stringBytesMatch (buf.drop off) needle needle.length (!caseInsensitive)
          false .little := by
  rw [scanBufferString]
  cases hneedle : needle with
  | nil => simp
  | cons b rest =>
    rw [← hneedle]
    have hpos : 0 < needle.length := by rw [hneedle]; simp
    have hempty : needle.isEmpty = false := by rw [hneedle]; rfl
    simp only [hempty, Bool.false_or, Bool.not_false, Bool.true_and, decide_eq_true_eq]
    rw [Nat.max_eq_right hpos, strideOffsets_one]
    by_cases hlen : buf.length < needle.length
    · rw [if_pos hlen, show buf.length + 1 - needle.length = 0 by omega]
      rfl
    · rw [if_neg hlen, show buf.length - needle.length + 1 = buf.length + 1 - needle.length by omega]
      cases caseInsensitive
      · simp only [Bool.not_false, if_true, stringBytesMatch]
        have hanchor := anchored_filter mode buf 0 (buf.length + 1 - needle.length)
          (needle.getD 0 0) (fun off => bytesEqual (buf.drop off) needle needle.length) (by
            intro off _ hoff
            rw [bytesEqual, beq_iff_eq, List.take_length] at hoff
            have hhead := congrArg (fun l => l.getD 0 0) hoff
            simp only [List.getD_eq_getElem?_getD, List.getElem?_take_of_lt hpos,
              List.getElem?_drop] at hhead
            rw [List.getD_eq_getElem?_getD, Nat.zero_add, List.getD_eq_getElem?_getD]
            exact hhead)
        simp only [Nat.add_zero, Nat.sub_zero, List.map_id'] at hanchor
        exact hanchor
      · rfl

theorem binaryMatch_bad {pattern mask : List UInt8}
    (hbad : (pattern.isEmpty || mask.length != pattern.length) = true) (bytes : List UInt8) :
    (!pattern.isEmpty && binaryBytesMatch bytes pattern mask) = false := by
  simp only [Bool.or_eq_true, bne_iff_ne] at hbad
  rcases hbad with h | h
  · rw [h]
    rfl
  · simp [binaryBytesMatch, h]

theorem anchored_pattern (mode : SimdMode) (buf : List UInt8) {pattern mask : List UInt8} {idx : ℕ}
    (hidx : idx < pattern.length) (hfull : mask.getD idx 0 = 0xFF) (limit : ℕ) :
    ((anchorScan mode buf idx (limit + idx) (pattern.getD idx 0)).map (· - idx)).filter
        (fun off => maskedEqual (buf.drop off) pattern mask)
      = (List.range limit).filter fun off => maskedEqual (buf.drop off) pattern mask := by
  refine anchored_filter mode buf idx limit _ _ fun off _ hoff => ?_
  rw [maskedEqual, List.all_eq_true] at hoff
  have hat := hoff idx (List.mem_range.mpr hidx)
  have hand : ∀ b : UInt8, b &&& 0xFF = b := fun b => UInt8.and_neg_one
  rw [beq_iff_eq, hfull, hand, hand, List.getD_eq_getElem?_getD, List.getElem?_drop, Nat.add_comm,
    ← List.getD_eq_getElem?_getD] at hat
  exact hat

theorem scanBufferAOB_eq (mode : SimdMode) (buf pattern mask : List UInt8) :
    scanBufferAOB mode buf pattern mask =
      (strideOffsets (buf.length + 1 - max 1 pattern.length) 1).filter fun off =>
        !pattern.isEmpty && binaryBytesMatch (buf.drop off) pattern mask := by
  rw [scanBufferAOB]
  by_cases hbad : (pattern.isEmpty || mask.length != pattern.length) = true
  · rw [if_pos (by rw [hbad]; rfl)]
    simp only [binaryMatch_bad hbad, List.filter_false]
  · simp only [Bool.or_eq_true, bne_iff_ne, not_or, not_not, Bool.not_eq_true] at hbad
    have hpos : 0 < pattern.length := by
      cases pattern with
      | nil => exact absurd hbad.1 (by decide)
      | cons => simp
    simp only [hbad.1, hbad.2, bne_self_eq_false, Bool.or_self, Bool.false_or, decide_eq_true_eq,
      binaryBytesMatch, beq_self_eq_true, Bool.true_and, Bool.not_false]
    rw [Nat.max_eq_right hpos, strideOffsets_one]
    by_cases hlen : buf.length < pattern.length
    · rw [if_pos hlen, show buf.length + 1 - pattern.length = 0 by omega]
      rfl
    · rw [if_neg hlen, show buf.length - pattern.length + 1 = buf.length + 1 - pattern.length by omega]
      split
      · rfl
      · rename_i hidx
        have hle := @List.findIdx_le_length _ (· == (0xFF : UInt8)) mask
        have hlt : mask.findIdx (· == 0xFF) < mask.length := by omega
        have hfull : mask.getD (mask.findIdx (· == 0xFF)) 0 = 0xFF := by
          have := List.findIdx_getElem (w := hlt)
          rw [List.getD_eq_getElem?_getD, List.getElem?_eq_getElem hlt]
          simpa using this
        exact anchored_pattern mode buf (by omega) hfull _

def plainPositions (buf : List UInt8) (size : ℕ) (test : List UInt8 → Bool) : List ℕ :=
  (List.range (buf.length + 1 - size)).filter fun off => test (buf.drop off)

/-- Vectors and anchors change nothing: lanes of 16 or 32 bytes find what the scalar loop finds, over any
number of lanes, for either byte order, and an anchored search finds what testing every position finds. -/
theorem vector_search_is_plain (mode : SimdMode) (buf : List UInt8) :
    (∀ t : IntType, 0 < t.size → ∀ v : ℤ,
      (∀ bytes nLanes : ℕ, nLanes * t.size ≤ buf.length → scanExactVector bytes t buf nLanes (t.cast v)
        = (List.range nLanes).filter fun i => t.read (buf.drop (i * t.size)) nativeScanByteOrder == t.cast v) ∧
      ∀ alignment : ℕ,
        scanExactInteger mode t buf alignment (t.cast v) = scanExactInteger .scalar t buf alignment (t.cast v) ∧
        ∀ order : ByteOrder,
          scanIntegerTarget mode t buf alignment (t.cast v) 0 .exact order
            = (strideOffsets (buf.length + 1 - t.size) (max 1 alignment)).filter fun off =>
              t.read (buf.drop off) order == t.cast v) ∧
    (∀ (needle : List UInt8) (caseInsensitive : Bool), needle ≠ [] →
      scanBufferString mode buf needle caseInsensitive = plainPositions buf needle.length fun bytes =>
        stringBytesMatch bytes needle needle.length (!caseInsensitive) false .little) ∧
    (∀ pattern mask : List UInt8, pattern ≠ [] → mask.length = pattern.length →
      scanBufferAOB mode buf pattern mask = plainPositions buf pattern.length (maskedEqual · pattern mask) ∧
      ∀ idx limit : ℕ, idx < pattern.length → mask.getD idx 0 = 0xFF →
        ((anchorScan mode buf idx (limit + idx) (pattern.getD idx 0)).map (· - idx)).filter
            (fun off => maskedEqual (buf.drop off) pattern mask)
          = (List.range limit).filter fun off => maskedEqual (buf.drop off) pattern mask) := by
  refine ⟨fun t ht v => ⟨fun bytes nLanes hn => ?_, fun alignment => ⟨?_, fun order => ?_⟩⟩,
    fun needle caseInsensitive hne => ?_, fun pattern mask hne hlen => ⟨?_, fun idx limit hidx hfull => ?_⟩⟩
  · exact scanExactVector_eq bytes ht hn (IntType.cast_cast t v)
  · rw [scanExactInteger_eq mode ht alignment (IntType.cast_cast t v),
      scanExactInteger_eq .scalar ht alignment (IntType.cast_cast t v)]
  · exact scanIntegerTarget_eq mode ht alignment (IntType.cast_cast t v) 0 .exact order
  · have hpos := List.length_pos_of_ne_nil hne
    have hempty : needle.isEmpty = false := by simpa using hne
    rw [scanBufferString_eq, Nat.max_eq_right hpos, strideOffsets_one, hempty]
    rfl
  · have hpos := List.length_pos_of_ne_nil hne
    have hempty : pattern.isEmpty = false := by simpa using hne
    rw [scanBufferAOB_eq, Nat.max_eq_right hpos, strideOffsets_one, hempty]
    refine List.filter_congr fun off _ => ?_
    rw [binaryBytesMatch, hlen, beq_self_eq_true]
    rfl
  · exact anchored_pattern mode buf hidx hfull limit

/-- A needle in the last lane of a vector and one behind it, and a pattern behind a wildcard. -/
theorem vector_search_on_20_bytes :
    let buf : List UInt8 := List.replicate 12 0 ++ [1, 2, 3, 4, 1, 2, 3, 4]
    scanIntegerTarget .sse2 IntType.int32 buf 4 (IntType.int32.cast 0x04030201) 0 .exact .little = [12, 16] ∧
    scanBufferAOB .sse2 buf [0, 2] [0, 0xFF] = [12, 16] := by
  intro buf
  obtain ⟨hinteger, -, hpattern⟩ := vector_search_is_plain .sse2 buf
  rw [(((hinteger IntType.int32 (by decide) 0x04030201).2 4).2 .little), (hpattern [0, 2] [0, 0xFF] (by decide) rfl).1]
  decide

theorem scanBufferUnicode_eq {needle : List UInt8}
    (hshort : needle = [] ∨ max 2 needle.length = needle.length) (buf : List UInt8)
    (caseInsensitive : Bool) (order : ByteOrder) :
    scanBufferUnicode buf needle caseInsensitive order =
      (strideOffsets (buf.length + 1 - max 2 needle.length) 2).filter fun off =>
        !needle.isEmpty
          && stringBytesMatch (buf.drop off) needle needle.length (!caseInsensitive) true order := by
  rw [scanBufferUnicode]
  rcases hshort with rfl | hsize
  · simp
  · have hempty : needle.isEmpty = false := by
      cases needle with
      | nil => exact absurd hsize (by decide)
      | cons => rfl
    rw [hsize, ← guarded_offsets _ _ _ (by decide)]
    simp only [show needle.length ≠ 0 by omega, decide_false, Bool.false_or, decide_eq_true_eq,
      hempty, Bool.not_false, Bool.true_and]

theorem scanBufferBinary_eq (buf pattern mask : List UInt8) (alignment : ℕ) :
    scanBufferBinary buf pattern mask alignment =
      (strideOffsets (buf.length + 1 - max 1 pattern.length) (max 1 alignment)).filter fun off =>
        !pattern.isEmpty && binaryBytesMatch (buf.drop off) pattern mask := by
  rw [scanBufferBinary]
  by_cases hbad : (pattern.isEmpty || mask.length != pattern.length) = true
  · rw [if_pos (by rw [hbad]; rfl)]
    simp only [binaryMatch_bad hbad, List.filter_false]
  · simp only [Bool.or_eq_true, bne_iff_ne, not_or, not_not, Bool.not_eq_true] at hbad
    have hpos : 0 < pattern.length := by
      cases pattern with
      | nil => exact absurd hbad.1 (by decide)
      | cons => simp
    rw [Nat.max_eq_right hpos, stride_eq, ← guarded_offsets _ _ _ (by omega)]
    simp only [hbad.1, hbad.2, bne_self_eq_false, Bool.or_self, Bool.false_or, decide_eq_true_eq,
      binaryBytesMatch, beq_self_eq_true, Bool.true_and, Bool.not_false]

theorem scanBufferUnknown_eq (buf : List UInt8) (alignment valueSize : ℕ) :
    scanBufferUnknown buf alignment valueSize =
      (strideOffsets (buf.length + 1 - max 1 valueSize) (max 1 alignment)).filter fun _ =>
        valueSize != 0 := by
  rw [scanBufferUnknown]
  rcases Nat.eq_zero_or_pos valueSize with rfl | hpos
  · simp
  · have hne : (valueSize != 0) = true := bne_iff_ne.mpr (by omega)
    rw [Nat.max_eq_right hpos, stride_eq, ← guarded_offsets _ _ _ (by omega)]
    simp only [show valueSize ≠ 0 by omega, hne, decide_false, Bool.false_or, decide_eq_true_eq,
      List.filter_true]

theorem scanBufferGrouped_eq (iconv : String → List UInt8 → Option (List UInt8)) (buf : List UInt8)
    (alignment : ℕ) (config : ScanConfig) :
    scanBufferGrouped iconv buf alignment config =
      (strideOffsets (buf.length + 1 - max 1 (config.blockSize iconv)) (max 1 alignment)).filter
        fun off => config.blockSize iconv != 0 && (!config.groupedTerms.isEmpty
          && groupedBlockMatches iconv (buf.drop off) (config.blockSize iconv) config) := by
  rw [scanBufferGrouped]
  cases hterms : config.groupedTerms.isEmpty
  · rcases Nat.eq_zero_or_pos (config.blockSize iconv) with h0 | hpos
    · simp [h0]
    · have hne : (config.blockSize iconv != 0) = true := bne_iff_ne.mpr (by omega)
      rw [Nat.max_eq_right hpos, stride_eq, ← guarded_offsets _ _ _ (by omega)]
      simp only [show config.blockSize iconv ≠ 0 by omega, hne, decide_false, Bool.false_or,
        decide_eq_true_eq, Bool.not_false, Bool.true_and]
  · simp

/-! ### What a test reads -/

theorem scalarBytes_take {size n : ℕ} (h : size ≤ n) (bytes : List UInt8) (order : ByteOrder) :
    scalarBytes size (bytes.take n) order = scalarBytes size bytes order := by
  rw [scalarBytes, scalarBytes, List.take_take, Nat.min_eq_left h]

theorem IntType.read_take {t : IntType} {n : ℕ} (h : t.size ≤ n) (bytes : List UInt8)
    (order : ByteOrder) : t.read (bytes.take n) order = t.read bytes order := by
  rw [IntType.read, scalarBytes_take h, IntType.read]

theorem readFloating_take {T : Type} [ScanFloat T] {n : ℕ} (h : ScanFloat.size T ≤ n)
    (bytes : List UInt8) (order : ByteOrder) :
    readFloating T (bytes.take n) order = readFloating T bytes order := by
  rw [readFloating, scalarBytes_take h, readFloating]

theorem getD_take {n i : ℕ} (h : i < n) (bytes : List UInt8) :
    (bytes.take n).getD i 0 = bytes.getD i 0 := by
  rw [List.getD_eq_getElem?_getD, List.getElem?_take_of_lt h, ← List.getD_eq_getElem?_getD]

theorem all_range_congr {n : ℕ} {f g : ℕ → Bool} (h : ∀ i < n, f i = g i) :
    (List.range n).all f = (List.range n).all g := by
  rw [Bool.eq_iff_iff, List.all_eq_true, List.all_eq_true]
  refine forall₂_congr fun i hi => ?_
  rw [h i (List.mem_range.mp hi)]

theorem stringBytesMatch_take {size n : ℕ} (h : size ≤ n) (value needle : List UInt8)
    (caseSensitive unicode : Bool) (order : ByteOrder) :
    stringBytesMatch (value.take n) needle size caseSensitive unicode order =
      stringBytesMatch value needle size caseSensitive unicode order := by
  rw [stringBytesMatch, stringBytesMatch]
  cases caseSensitive
  · cases unicode
    · simp only [Bool.false_eq_true, if_false]
      refine all_range_congr fun i hi => ?_
      rw [getD_take (by omega)]
    · simp only [Bool.false_eq_true, if_false, if_true]
      split
      · rfl
      · refine all_range_congr fun k hk => ?_
        rw [unitMatches, unitMatches]
        have hlow : 2 * k + (if order = .big then 1 else 0) < n := by
          split <;> omega
        have hhigh : 2 * k + (if order = .big then 0 else 1) < n := by
          split <;> omega
        simp only [getD_take hlow, getD_take hhigh]
  · rw [if_pos rfl, if_pos rfl, bytesEqual, bytesEqual, List.take_take, Nat.min_eq_left h]

theorem maskedEqual_take {n : ℕ} {pattern : List UInt8} (h : pattern.length ≤ n)
    (current mask : List UInt8) :
    maskedEqual (current.take n) pattern mask = maskedEqual current pattern mask := by
  refine all_range_congr fun j hj => ?_
  rw [getD_take (by omega)]

theorem binaryBytesMatch_take {n : ℕ} {pattern : List UInt8} (h : pattern.length ≤ n)
    (current mask : List UInt8) :
    binaryBytesMatch (current.take n) pattern mask = binaryBytesMatch current pattern mask := by
  rw [binaryBytesMatch, maskedEqual_take h, binaryBytesMatch]

theorem compareMaskedBytes_take {n : ℕ} {pattern : List UInt8} (h : pattern.length ≤ n)
    (current mask : List UInt8) :
    compareMaskedBytes (current.take n) pattern mask = compareMaskedBytes current pattern mask := by
  rw [compareMaskedBytes, compareMaskedBytes]
  congr 1
  refine all_range_congr fun j hj => ?_
  rw [getD_take (by omega)]

/-- What a scan relies on `iconv` for: UTF-16 text has whole units, as many in either order. -/
structure Utf16Iconv (iconv : String → List UInt8 → Option (List UInt8)) : Prop where
  sameLength : ∀ text le be, iconv "UTF-16LE" text = some le → iconv "UTF-16BE" text = some be →
    le.length = be.length
  wholeUnits : ∀ text, ∀ encoding ∈ ["UTF-16LE", "UTF-16BE"], ∀ bytes,
    iconv encoding text = some bytes → bytes.length % 2 = 0

def TermsEncoded (iconv : String → List UInt8 → Option (List UInt8)) (config : ScanConfig) : Prop :=
  ∀ term ∈ config.groupedTerms, term.valueType = .unicodeString →
    utf16Bytes iconv term.stringValue config.byteOrder = .ok term.byteArray

section Grouped

variable {iconv : String → List UInt8 → Option (List UInt8)} {config : ScanConfig}

theorem utf16Bytes_iconv {text : List UInt8} {order : ByteOrder} {bytes : List UInt8}
    (h : utf16Bytes iconv text order = .ok bytes) :
    iconv (if order = .big then "UTF-16BE" else "UTF-16LE") text = some bytes := by
  have henc : isUtf8Encoding (if order = .big then "UTF-16BE" else "UTF-16LE") = false := by
    split <;> decide
  rw [utf16Bytes, encodeStringBytes, henc] at h
  simp only [Bool.false_eq_true, if_false] at h
  split at h
  · rename_i found hfound
    rw [hfound, Except.ok.inj h]
  · cases h

theorem utf16Bytes_length (hi : Utf16Iconv iconv) {text le bytes : List UInt8} {order : ByteOrder}
    (hle : utf16Bytes iconv text .little = .ok le) (h : utf16Bytes iconv text order = .ok bytes) :
    le.length = bytes.length := by
  have h1 : iconv "UTF-16LE" text = some le := utf16Bytes_iconv hle
  have h2 := utf16Bytes_iconv h
  split at h2
  · exact hi.sameLength text le bytes h1 h2
  · rw [h1] at h2
    rw [Option.some.inj h2]

theorem utf16Needle_length (hi : Utf16Iconv iconv) (text : List UInt8) (order : ByteOrder) :
    ((utf16Bytes iconv text order).toOption.getD []).length % 2 = 0 := by
  cases h : utf16Bytes iconv text order with
  | error => rfl
  | ok bytes =>
    refine hi.wholeUnits text _ ?_ bytes (utf16Bytes_iconv h)
    split <;> simp

theorem groupedTermMatches_take (hi : Utf16Iconv iconv)
    (hw : config.pointerWidth = 0 ∨ config.pointerWidth = 4 ∨ config.pointerWidth = 8)
    {term : GroupedTerm}
    (hterm : term.valueType = .unicodeString →
      utf16Bytes iconv term.stringValue config.byteOrder = .ok term.byteArray) {size n : ℕ}
    (hsize : groupedTermValueSize iconv term config.pointerWidth = .ok size) (hpos : size ≠ 0)
    (hn : size ≤ n) (value : List UInt8) :
    groupedTermMatches (value.take n) term config = groupedTermMatches value term config := by
  rw [groupedTermValueSize] at hsize
  rw [groupedTermMatches, groupedTermMatches]
  cases hv : term.valueType <;> rw [hv] at hsize <;> dsimp only at hsize ⊢
  case byte | int16 | int32 | int64 =>
    rw [IntType.read_take (by cases hsize; exact hn)]
  case pointer =>
    cases hsize
    rw [IntType.read_take]
    split
    · rename_i h4
      rw [h4] at hn
      exact hn
    · rename_i h4
      have h8 : config.pointerWidth = 8 := by omega
      rw [h8] at hn
      exact hn
  case float | double =>
    rw [readFloating_take (by cases hsize; exact hn)]
  case string =>
    cases hsize
    exact stringBytesMatch_take (by omega) _ _ _ _ _
  case unicodeString =>
    rw [bind_eq_ok] at hsize
    obtain ⟨le, hle, hsize⟩ := hsize
    have hlen := utf16Bytes_length hi hle (hterm hv)
    cases hsize
    exact stringBytesMatch_take (by omega) _ _ _ _ _
  case byteArray =>
    cases hsize
    exact compareMaskedBytes_take (by omega) _ _
  case binary =>
    cases hsize
    exact binaryBytesMatch_take (by omega) _ _

theorem groupedBlockMatches_take (hi : Utf16Iconv iconv)
    (hw : config.pointerWidth = 0 ∨ config.pointerWidth = 4 ∨ config.pointerWidth = 8)
    (hterms : TermsEncoded iconv config) (block : List UInt8) (blockSize : ℕ) :
    groupedBlockMatches iconv (block.take blockSize) blockSize config =
      groupedBlockMatches iconv block blockSize config := by
  rw [groupedBlockMatches, groupedBlockMatches, Bool.eq_iff_iff, List.all_eq_true,
    List.all_eq_true]
  refine forall₂_congr fun term hterm => ?_
  cases hsize : groupedTermValueSize iconv term config.pointerWidth with
  | error => simp [Except.toOption]
  | ok size =>
    simp only [Except.toOption, Option.getD_some, Bool.and_eq_true, Bool.not_eq_true',
      Bool.or_eq_false_iff, beq_eq_false_iff_ne]
    refine and_congr_right fun hfit => ?_
    have h1 := of_decide_eq_false hfit.1.2
    have h2 := of_decide_eq_false hfit.2
    rw [List.drop_take, groupedTermMatches_take hi hw (hterms term hterm) hsize hfit.1.1 (by omega)]

end Grouped

/-! ### Lanes of floating-point values -/

section Floating

variable {T : Type} [ScanFloat T]

open ScanFloat

/-- The window of an inexact vector search keeps every value the search accepts. -/
def WindowKeeps (T : Type) [ScanFloat T] (config : ScanConfig) : Prop :=
  ∀ c : T, compareFloatingExact config c config.floatValue = true →
    (roundedWindow T config).1 ≤ c ∧ c ≤ (roundedWindow T config).2

theorem scanFloatLanes_eq (mode : SimdMode) (buf : List UInt8) (nLanes : ℕ) {block test : T → Bool}
    (h : mode ≠ .scalar → ∀ c, block c = test c) :
    scanFloatLanes T mode buf nLanes block test = (List.range nLanes).filter fun k =>
      test (readFloating T (buf.drop (k * size T)) nativeScanByteOrder) := by
  have hvector : mode ≠ .scalar → ∀ width, blockScan width nLanes
      (fun i => (List.range' i width).filter fun k =>
        block (readFloating T (buf.drop (k * size T)) nativeScanByteOrder))
      (fun k => test (readFloating T (buf.drop (k * size T)) nativeScanByteOrder)) =
      (List.range nLanes).filter fun k =>
        test (readFloating T (buf.drop (k * size T)) nativeScanByteOrder) := by
    intro hmode width
    refine blockScan_eq fun k _ => ?_
    simp only [h hmode]
  cases mode with
  | scalar => rfl
  | sse2 => exact hvector (by decide) _
  | avx2 => exact hvector (by decide) _

/-- Where the search at the stride of the size applies. -/
def ExactFloatApplies (T : Type) [ScanFloat T] (config : ScanConfig) : Prop :=
  config.compareType = .exact ∧ config.alignment = size T ∧ config.floatValue.isFinite = true ∧
    ¬ config.floatValue.abs > maxValue T

instance (config : ScanConfig) : Decidable (ExactFloatApplies T config) :=
  inferInstanceAs (Decidable (_ ∧ _ ∧ _ ∧ _))

theorem tryScanExactFloat_none (mode : SimdMode) (buf : List UInt8) (config : ScanConfig)
    (h : ¬ (ExactFloatApplies T config ∧ size T ≤ buf.length)) :
    tryScanExactFloat T mode buf config.alignment config = none := by
  rw [tryScanExactFloat, if_pos]
  by_contra hgo
  simp only [Bool.or_eq_true, bne_iff_ne, not_or, not_not, decide_eq_true_eq, Bool.not_eq_true',
    Bool.not_eq_false] at hgo
  exact h ⟨⟨hgo.1.1.1.1, hgo.1.1.1.2, hgo.1.2, hgo.2⟩, Nat.not_lt.mp hgo.1.1.2⟩

theorem tryScanExactFloat_some (mode : SimdMode) (buf : List UInt8) (config : ScanConfig)
    (hsize : 0 < size T) (happ : ExactFloatApplies T config) (hlen : size T ≤ buf.length)
    (hwindow : mode ≠ .scalar → config.roundingType ≠ 0 → WindowKeeps T config) :
    tryScanExactFloat T mode buf config.alignment config =
      some ((strideOffsets (buf.length + 1 - size T) (max 1 config.alignment)).filter fun off =>
        if config.roundingType = 0
        then readFloating T (buf.drop off) nativeScanByteOrder == ofDouble config.floatValue
        else compareFloatingExact config (readFloating T (buf.drop off) nativeScanByteOrder)
          config.floatValue) := by
  obtain ⟨hexact, halign, hfinite, hmax⟩ := happ
  have hgo : (config.compareType != .exact || config.alignment != size T
      || decide (buf.length < size T) || !config.floatValue.isFinite
      || decide (config.floatValue.abs > maxValue T)) = false := by
    simp [hexact, halign, hfinite, hmax, Nat.not_lt.mpr hlen]
  have hoffsets : strideOffsets (buf.length + 1 - size T) (max 1 config.alignment)
      = (List.range ((buf.length - size T) / size T + 1)).map (· * size T) := by
    rw [halign, Nat.max_eq_right hsize, strideOffsets,
      show buf.length + 1 - size T + size T - 1 = buf.length - size T + size T by omega,
      Nat.add_div_right _ hsize]
  rw [tryScanExactFloat, hgo, hoffsets, List.filter_map]
  simp only [Bool.false_eq_true, if_false, Option.some.injEq]
  refine congrArg (List.map (· * size T)) ?_
  split
  · rw [scanFloatLanes_eq mode buf _ fun _ _ => rfl]
    rfl
  · rename_i hround
    rw [scanFloatLanes_eq mode buf]
    · rfl
    · intro hmode c
      cases hverify : compareFloatingExact config c config.floatValue
      · rw [Bool.and_false]
      · obtain ⟨hlo, hhi⟩ := hwindow hmode hround c hverify
        rw [decide_eq_true hlo, decide_eq_true hhi]
        rfl

/-- The test of one value: the search at the stride of its size compares with the value cast to
the type, any other compares as doubles. -/
def floatTest (T : Type) [ScanFloat T] (config : ScanConfig) (c : T) : Bool :=
  if config.byteOrder = nativeScanByteOrder ∧ ExactFloatApplies T config ∧ config.roundingType = 0
  then c == ofDouble config.floatValue
  else compareFloating config c

theorem scanFloatTarget_eq (mode : SimdMode) (buf : List UInt8) (config : ScanConfig)
    (hsize : 0 < size T)
    (hwindow : mode ≠ .scalar → config.roundingType ≠ 0 →
      config.byteOrder = nativeScanByteOrder → ExactFloatApplies T config → WindowKeeps T config) :
    scanFloatTarget T mode buf config =
      (strideOffsets (buf.length + 1 - size T) (max 1 config.alignment)).filter fun off =>
        floatTest T config (readFloating T (buf.drop off) config.byteOrder) := by
  have hplain : scanBufferFloating T buf config.alignment config =
      (strideOffsets (buf.length + 1 - size T) (max 1 config.alignment)).filter fun off =>
        compareFloating config (readFloating T (buf.drop off) config.byteOrder) := by
    rw [scanBufferFloating, stride_eq, guarded_offsets _ _ _ (by omega)]
  rw [scanFloatTarget]
  by_cases hnative : config.byteOrder = nativeScanByteOrder
  · rw [if_neg (by simp [hnative])]
    by_cases happ : ExactFloatApplies T config ∧ size T ≤ buf.length
    · rw [tryScanExactFloat_some mode buf config hsize happ.1 happ.2
        fun hm hr => hwindow hm hr hnative happ.1, Option.getD_some, hnative]
      refine List.filter_congr fun off _ => ?_
      by_cases hround : config.roundingType = 0
      · rw [if_pos hround, floatTest, if_pos ⟨hnative, happ.1, hround⟩]
      · rw [if_neg hround, floatTest, if_neg (fun h => hround h.2.2), compareFloating,
          if_pos happ.1.1]
    · rw [tryScanExactFloat_none mode buf config happ, Option.getD_none, hplain]
      by_cases hlen : size T ≤ buf.length
      · refine List.filter_congr fun off _ => ?_
        rw [floatTest, if_neg (fun h => happ ⟨h.2.1, hlen⟩)]
      · rw [show buf.length + 1 - size T = 0 by omega, strideOffsets_zero (by omega)]
        rfl
  · rw [if_pos (by simpa using hnative), hplain]
    refine List.filter_congr fun off _ => ?_
    rw [floatTest, if_neg (fun h => hnative h.1)]

end Floating

/-! ### All types at once -/

theorem allCandidateMatches_take (config : ScanConfig) {type : ScalarType} {n : ℕ}
    (h : type.size ≤ n) (bytes : List UInt8) :
    allCandidateMatches config type (bytes.take n) = allCandidateMatches config type bytes := by
  cases type with
  | int t =>
    rw [allCandidateMatches, allCandidateMatches]
    simp only [IntType.read_take h]
  | float =>
    rw [allCandidateMatches, allCandidateMatches, readFloating_take h]
  | double =>
    rw [allCandidateMatches, allCandidateMatches, readFloating_take h]

theorem candidateMask_congr {test test' : ScalarType → ℕ → Bool}
    (h : ∀ type ∈ allCandidateTypes, ∀ bit, test type bit = test' type bit) :
    candidateMask test = candidateMask test' := by
  rw [candidateMask, candidateMask]
  refine List.foldl_ext _ _ _ fun mask c hc => ?_
  rw [h c.1 (List.fst_mem_of_mem_zipIdx hc)]

theorem allCandidateTypes_size : ∀ type ∈ allCandidateTypes, type.size ≤ 8 := by decide

theorem allTypeMask_take (config : ScanConfig) (bytes : List UInt8) :
    allTypeMask config (bytes.take 8) = allTypeMask config bytes := by
  refine candidateMask_congr fun type htype _ => ?_
  have h8 := allCandidateTypes_size type htype
  rw [allCandidateMatches_take config h8, List.length_take]
  congr 2
  rw [Bool.eq_iff_iff, decide_eq_true_iff, decide_eq_true_iff]
  omega

theorem allTypeWindow_take (bytes : List UInt8) :
    allTypeWindow (bytes.take 8) = allTypeWindow bytes := by
  rw [allTypeWindow, allTypeWindow, List.take_take, List.length_take]
  congr 2
  omega

theorem allTypeWindow_length (bytes : List UInt8) : (allTypeWindow bytes).length = 8 := by
  rw [allTypeWindow, List.length_append, List.length_take, List.length_replicate]
  omega

theorem or_and_eq_zero {a b c : UInt8} (ha : a &&& c = 0) (hb : b &&& c = 0) :
    (a ||| b) &&& c = 0 := by
  rw [← UInt8.toBitVec_inj] at *
  simp only [UInt8.toBitVec_and, UInt8.toBitVec_or] at *
  ext i hi
  have h1 := congrArg (·.getLsbD i) ha
  have h2 := congrArg (·.getLsbD i) hb
  simp at h1 h2
  grind

theorem candidateMask_bits (test : ScalarType → ℕ → Bool) : candidateMask test &&& 0xc0 = 0 := by
  have hbit : ∀ c ∈ allCandidateTypes.zipIdx, UInt8.ofNat (2 ^ c.2) &&& 0xc0 = 0 := by decide
  rw [candidateMask]
  refine List.foldlRecOn (motive := fun mask => mask &&& (0xc0 : UInt8) = 0) _ _ (by decide)
    fun mask hmask c hc => ?_
  split
  · exact or_and_eq_zero hmask (hbit c hc)
  · exact hmask

/-! ### Plain searches -/

/-- A search that tests each position of a stride by the bytes there; with `whole`, only where
`size` of them are left. -/
structure PlainScan where
  stride : ℕ
  size : ℕ
  whole : Bool := true
  test : List UInt8 → Bool

section Plain

variable (iconv : String → List UInt8 → Option (List UInt8))

/-- The plain search of a configuration; custom formulas have none. -/
def plainScan (config : ScanConfig) : PlainScan :=
  let alignment := max 1 config.alignment
  let integer (t : IntType) : PlainScan :=
    { stride := alignment
      size := t.size
      test := fun w => getCompare config.compareType (t.read w config.byteOrder)
        (t.cast config.intValue) (t.cast config.intValue2) }
  match config.valueType with
  | .byte => integer .uint8
  | .int16 => integer .int16
  | .int32 => integer .int32
  | .int64 => integer .int64
  | .pointer => integer (if config.pointerWidth = 4 then .uint32 else .uint64)
  | .float =>
    { stride := alignment
      size := 4
      test := fun w => floatTest Float32 config (readFloating Float32 w config.byteOrder) }
  | .double =>
    { stride := alignment
      size := 8
      test := fun w => floatTest Float config (readFloating Float w config.byteOrder) }
  | .string =>
    let needle := (encodeStringBytes iconv config.stringValue config.stringEncoding).toOption.getD []
    { stride := 1
      size := max 1 needle.length
      test := fun w => !needle.isEmpty
        && stringBytesMatch w needle needle.length config.caseSensitive false .little }
  | .unicodeString =>
    let needle := (utf16Bytes iconv config.stringValue config.byteOrder).toOption.getD []
    { stride := 2
      size := max 2 needle.length
      test := fun w => !needle.isEmpty
        && stringBytesMatch w needle needle.length config.caseSensitive true config.byteOrder }
  | .byteArray =>
    { stride := 1
      size := max 1 config.byteArray.length
      test := fun w => !config.byteArray.isEmpty
        && binaryBytesMatch w config.byteArray config.byteArrayMask }
  | .binary =>
    { stride := alignment
      size := max 1 config.byteArray.length
      test := fun w => !config.byteArray.isEmpty
        && binaryBytesMatch w config.byteArray config.byteMask }
  | .all =>
    { stride := alignment
      size := 8
      whole := false
      test := fun w => allTypeMask config w != 0 }
  | .grouped =>
    { stride := alignment
      size := max 1 (config.blockSize iconv)
      test := fun w => config.blockSize iconv != 0 && (config.compareType = .unknown
        || (!config.groupedTerms.isEmpty
          && groupedBlockMatches iconv w (config.blockSize iconv) config)) }
  | .custom => { stride := alignment, size := max 1 config.customValueSize, test := fun _ => false }

def plainHit (config : ScanConfig) (window : List UInt8) (off : ℕ) : Hit :=
  if config.valueType = .all then ⟨off, allTypeWindow window, allTypeMask config window⟩
  else ⟨off, window, 0⟩

def plainHits (config : ScanConfig) (emitLimit : ℕ) (buf : List UInt8) : List Hit :=
  let p := plainScan iconv config
  (scanWindows p.stride p.size p.whole p.test emitLimit buf).map fun off =>
    plainHit config ((buf.drop off).take p.size) off

/-- What the plain search of an accepted configuration rests on. -/
structure PlainConfig (mode : SimdMode) (config : ScanConfig) : Prop where
  utf16 : Utf16Iconv iconv
  terms : TermsEncoded iconv config
  pointerWidth : config.pointerWidth = 0 ∨ config.pointerWidth = 4 ∨ config.pointerWidth = 8
  notCustom : config.valueType ≠ .custom
  float : config.valueType = .float → mode ≠ .scalar → config.roundingType ≠ 0 →
    config.byteOrder = nativeScanByteOrder → ExactFloatApplies Float32 config →
      WindowKeeps Float32 config
  double : config.valueType = .double → mode ≠ .scalar → config.roundingType ≠ 0 →
    config.byteOrder = nativeScanByteOrder → ExactFloatApplies Float config →
      WindowKeeps Float config

variable {iconv}

theorem emitAt_eq_plainHits {config : ScanConfig} (hall : config.valueType ≠ .all)
    (hwhole : (plainScan iconv config).whole = true) {buf : List UInt8} {size : ℕ} {test : ℕ → Bool}
    (htest : ∀ off, test off
      = (plainScan iconv config).test ((buf.drop off).take (plainScan iconv config).size))
    (hsize : size = (plainScan iconv config).size ∨ ∀ off, test off = false) (emitLimit : ℕ) :
    emitAt buf size ((strideOffsets (buf.length + 1 - (plainScan iconv config).size)
        (plainScan iconv config).stride).filter test) =
      plainHits iconv config emitLimit buf := by
  have hoffsets : scanWindows (plainScan iconv config).stride (plainScan iconv config).size
      (plainScan iconv config).whole (plainScan iconv config).test emitLimit buf =
      (strideOffsets (buf.length + 1 - (plainScan iconv config).size)
        (plainScan iconv config).stride).filter test := by
    rw [scanWindows, hwhole, if_pos rfl]
    exact List.filter_congr fun off _ => (htest off).symm
  rw [plainHits, hoffsets, emitAt]
  refine List.map_congr_left fun off hoff => ?_
  rcases hsize with rfl | hnone
  · rw [plainHit, if_neg hall]
  · rw [List.mem_filter, hnone] at hoff
    cases hoff.2

theorem scanRegion_plain {σ : Type} (lua : FormulaEvaluator σ) {mode : SimdMode}
    {config : ScanConfig} (h : PlainConfig iconv mode config) (buf : List UInt8) (emitLimit : ℕ)
    (st : σ) :
    scanRegion iconv lua mode config buf emitLimit st = (plainHits iconv config emitLimit buf, st) := by
  have hint : ∀ t : IntType, 0 < t.size → config.valueType ≠ .all →
      plainScan iconv config = (
        { stride := max 1 config.alignment
          size := t.size
          test := fun w => getCompare config.compareType (t.read w config.byteOrder)
            (t.cast config.intValue) (t.cast config.intValue2) } : PlainScan) →
      emitAt buf t.size (scanIntegerTarget mode t buf config.alignment (t.cast config.intValue)
        (t.cast config.intValue2) config.compareType config.byteOrder) =
      plainHits iconv config emitLimit buf := by
    intro t ht hall hp
    have := @emitAt_eq_plainHits iconv config hall (by rw [hp]) buf t.size
      (fun off => getCompare config.compareType (t.read (buf.drop off) config.byteOrder)
        (t.cast config.intValue) (t.cast config.intValue2))
      (fun off => by rw [hp]; simp only [IntType.read_take (Nat.le_refl _)])
      (Or.inl (by rw [hp])) emitLimit
    rw [scanIntegerTarget_eq mode ht config.alignment (IntType.cast_cast t _), ← this, hp]
  rw [scanRegion]
  cases hv : config.valueType
  case custom => exact absurd hv h.notCustom
  case byte =>
    exact congrArg (·, st) (hint .uint8 (by decide) (by simp [hv]) (by rw [plainScan, hv]))
  case int16 =>
    exact congrArg (·, st) (hint .int16 (by decide) (by simp [hv]) (by rw [plainScan, hv]))
  case int32 =>
    exact congrArg (·, st) (hint .int32 (by decide) (by simp [hv]) (by rw [plainScan, hv]))
  case int64 =>
    exact congrArg (·, st) (hint .int64 (by decide) (by simp [hv]) (by rw [plainScan, hv]))
  case pointer =>
    exact congrArg (·, st) (hint (if config.pointerWidth = 4 then .uint32 else .uint64)
      (by split <;> decide) (by simp [hv]) (by rw [plainScan, hv]))
  case float =>
    have hp : plainScan iconv config = (
        { stride := max 1 config.alignment
          size := 4
          test := fun w => floatTest Float32 config (readFloating Float32 w config.byteOrder) } :
        PlainScan) := by rw [plainScan, hv]
    have := @emitAt_eq_plainHits iconv config (by simp [hv]) (by rw [hp]) buf 4
      (fun off => floatTest Float32 config (readFloating Float32 (buf.drop off) config.byteOrder))
      (fun off => by rw [hp]; simp only [readFloating_take (T := Float32) (Nat.le_refl 4)])
      (Or.inl (by rw [hp])) emitLimit
    rw [hp] at this
    exact congrArg (·, st) ((congrArg (emitAt buf 4) (scanFloatTarget_eq mode buf config
      (by decide) (h.float hv))).trans this)
  case double =>
    have hp : plainScan iconv config = (
        { stride := max 1 config.alignment
          size := 8
          test := fun w => floatTest Float config (readFloating Float w config.byteOrder) } :
        PlainScan) := by rw [plainScan, hv]
    have := @emitAt_eq_plainHits iconv config (by simp [hv]) (by rw [hp]) buf 8
      (fun off => floatTest Float config (readFloating Float (buf.drop off) config.byteOrder))
      (fun off => by rw [hp]; simp only [readFloating_take (T := Float) (Nat.le_refl 8)])
      (Or.inl (by rw [hp])) emitLimit
    rw [hp] at this
    exact congrArg (·, st) ((congrArg (emitAt buf 8) (scanFloatTarget_eq mode buf config
      (by decide) (h.double hv))).trans this)
  case string =>
    dsimp only
    set needle := (encodeStringBytes iconv config.stringValue config.stringEncoding).toOption.getD []
      with hneedle
    have hp : plainScan iconv config = (
        { stride := 1
          size := max 1 needle.length
          test := fun w => !needle.isEmpty
            && stringBytesMatch w needle needle.length config.caseSensitive false .little } :
        PlainScan) := by rw [plainScan, hv]
    have := @emitAt_eq_plainHits iconv config (by simp [hv]) (by rw [hp]) buf needle.length
      (fun off => !needle.isEmpty
        && stringBytesMatch (buf.drop off) needle needle.length config.caseSensitive false .little)
      (fun off => by rw [hp]; simp only [stringBytesMatch_take (Nat.le_max_right 1 needle.length)])
      (by
        rw [hp]
        cases hn : needle with
        | nil => exact Or.inr fun _ => rfl
        | cons b rest => exact Or.inl (by simp)) emitLimit
    rw [hp] at this
    rw [scanBufferString_eq, Bool.not_not, this]
  case unicodeString =>
    dsimp only
    obtain ⟨needle, hneedle⟩ : ∃ n, n = (utf16Bytes iconv config.stringValue
      config.byteOrder).toOption.getD [] := ⟨_, rfl⟩
    have hp : plainScan iconv config = (
        { stride := 2
          size := max 2 needle.length
          test := fun w => !needle.isEmpty
            && stringBytesMatch w needle needle.length config.caseSensitive true config.byteOrder } :
        PlainScan) := by rw [plainScan, hv, hneedle]
    have hshort : needle = [] ∨ max 2 needle.length = needle.length := by
      have := utf16Needle_length h.utf16 config.stringValue config.byteOrder
      rw [← hneedle] at this
      rw [← List.length_eq_zero_iff]
      omega
    have := @emitAt_eq_plainHits iconv config (by simp [hv]) (by rw [hp]) buf needle.length
      (fun off => !needle.isEmpty
        && stringBytesMatch (buf.drop off) needle needle.length config.caseSensitive true
          config.byteOrder)
      (fun off => by rw [hp]; simp only [stringBytesMatch_take (Nat.le_max_right 2 needle.length)])
      (by
        rw [hp]
        rcases hshort with hn | hn
        · exact Or.inr fun _ => by rw [hn]; rfl
        · exact Or.inl hn.symm) emitLimit
    rw [hp] at this
    rw [← hneedle, ← this, scanBufferUnicode_eq hshort, Bool.not_not]
  case byteArray =>
    have hp : plainScan iconv config = (
        { stride := 1
          size := max 1 config.byteArray.length
          test := fun w => !config.byteArray.isEmpty
            && binaryBytesMatch w config.byteArray config.byteArrayMask } : PlainScan) := by
      rw [plainScan, hv]
    have := @emitAt_eq_plainHits iconv config (by simp [hv]) (by rw [hp]) buf config.byteArray.length
      (fun off => !config.byteArray.isEmpty
        && binaryBytesMatch (buf.drop off) config.byteArray config.byteArrayMask)
      (fun off => by
        rw [hp]
        simp only [binaryBytesMatch_take (Nat.le_max_right 1 config.byteArray.length)])
      (by
        rw [hp]
        cases hn : config.byteArray with
        | nil => exact Or.inr fun _ => rfl
        | cons b rest => exact Or.inl (by simp)) emitLimit
    rw [hp] at this
    dsimp only
    rw [scanBufferAOB_eq, this]
  case binary =>
    have hp : plainScan iconv config = (
        { stride := max 1 config.alignment
          size := max 1 config.byteArray.length
          test := fun w => !config.byteArray.isEmpty
            && binaryBytesMatch w config.byteArray config.byteMask } : PlainScan) := by
      rw [plainScan, hv]
    have := @emitAt_eq_plainHits iconv config (by simp [hv]) (by rw [hp]) buf config.byteArray.length
      (fun off => !config.byteArray.isEmpty
        && binaryBytesMatch (buf.drop off) config.byteArray config.byteMask)
      (fun off => by
        rw [hp]
        simp only [binaryBytesMatch_take (Nat.le_max_right 1 config.byteArray.length)])
      (by
        rw [hp]
        cases hn : config.byteArray with
        | nil => exact Or.inr fun _ => rfl
        | cons b rest => exact Or.inl (by simp)) emitLimit
    rw [hp] at this
    dsimp only
    rw [scanBufferBinary_eq, this]
  case all =>
    have hp : plainScan iconv config = (
        { stride := max 1 config.alignment
          size := 8
          whole := false
          test := fun w => allTypeMask config w != 0 } : PlainScan) := by rw [plainScan, hv]
    refine congrArg (·, st) ?_
    rw [plainHits, hp, scanBufferAllTypes, scanWindows]
    simp only [Bool.false_eq_true, if_false, allTypeMask_take, plainHit, hv, if_true,
      allTypeWindow_take]
  case grouped =>
    dsimp only
    obtain ⟨blockSize, hblock⟩ : ∃ n, n = config.blockSize iconv := ⟨_, rfl⟩
    have hp : plainScan iconv config = (
        { stride := max 1 config.alignment
          size := max 1 blockSize
          test := fun w => blockSize != 0 && (config.compareType = .unknown
            || (!config.groupedTerms.isEmpty
              && groupedBlockMatches iconv w blockSize config)) } : PlainScan) := by
      rw [plainScan, hv, hblock]
    have := @emitAt_eq_plainHits iconv config (by simp [hv]) (by rw [hp]) buf blockSize
      (fun off => blockSize != 0 && (config.compareType = .unknown
        || (!config.groupedTerms.isEmpty
          && groupedBlockMatches iconv (buf.drop off) blockSize config)))
      (fun off => by
        rw [hp]
        dsimp only
        rcases Nat.eq_zero_or_pos blockSize with h0 | hpos
        · simp only [h0, bne_self_eq_false, Bool.false_and]
        · rw [Nat.max_eq_right hpos,
            groupedBlockMatches_take h.utf16 h.pointerWidth h.terms])
      (by
        rw [hp]
        rcases Nat.eq_zero_or_pos blockSize with h0 | hpos
        · exact Or.inr fun _ => by simp only [h0, bne_self_eq_false, Bool.false_and]
        · exact Or.inl (Nat.max_eq_right hpos).symm) emitLimit
    rw [hp] at this
    rw [← hblock, ← this]
    refine congrArg (fun l => (emitAt buf blockSize l, st)) ?_
    dsimp only
    split
    · rename_i hunknown
      rw [scanBufferUnknown_eq]
      simp only [hunknown, decide_true, Bool.true_or, Bool.and_true]
    · rename_i hknown
      rw [scanBufferGrouped_eq, ← hblock]
      simp only [hknown, decide_false, Bool.false_or]

end Plain

end CheatEngine
