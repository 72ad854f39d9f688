import CheatEngineLinux.Scanner.ScanResult

/-!
# Addresses through the frame table

A result stores a 4-byte offset for every match and one table of runs.  The table stands for
a list of bases, one for every match, and both decoders add base and offset:

* `FramesFor` — a table and a list of offsets encode a list of addresses;
* `FramesFor.reconstruct_eq` — **PROVED**: the decoder of single rows finds the address;
* `FramesFor.decodeOffsets_eq` — **PROVED**: so does the decoder that moves through the frames
  with the rows;
* `FramesFor.concat` / `FramesFor.extend` — a match in a new frame, and one in the open frame.
-/

namespace CheatEngine

open RecordFile ScanResult

/-- The base of every match, run by run. -/
def frameBases (table : List (UInt64 × ℕ)) : List UInt64 :=
  table.flatMap fun f => List.replicate f.2 f.1

@[simp] theorem frameBases_nil : frameBases [] = [] := rfl

theorem frameBases_cons (f : UInt64 × ℕ) (table : List (UInt64 × ℕ)) :
    frameBases (f :: table) = List.replicate f.2 f.1 ++ frameBases table := rfl

theorem frameBases_append (table table' : List (UInt64 × ℕ)) :
    frameBases (table ++ table') = frameBases table ++ frameBases table' :=
  List.flatMap_append

/-- Base and offset of every match give its address, in whole numbers. -/
structure FramesFor (table : List (UInt64 × ℕ)) (offs : List UInt32) (addrs : List UInt64) :
    Prop where
  sums : List.zipWith (fun b o => b.toNat + o.toNat) (frameBases table) offs
    = addrs.map UInt64.toNat
  bases_length : (frameBases table).length = addrs.length
  offs_length : offs.length = addrs.length
  counts_pos : ∀ f ∈ table, 0 < f.2

theorem FramesFor.nil : FramesFor [] [] [] :=
  ⟨rfl, rfl, rfl, fun _ h => absurd h List.not_mem_nil⟩

/-! ### Writing -/

section Write

variable {table : List (UInt64 × ℕ)} {offs : List UInt32} {addrs : List UInt64}

/-- A match that opens a frame. -/
theorem FramesFor.concat (h : FramesFor table offs addrs) (a : UInt64) :
    FramesFor (table ++ [(a, 1)]) (offs ++ [0]) (addrs ++ [a]) := by
  have hb : frameBases (table ++ [(a, 1)]) = frameBases table ++ [a] := by
    rw [frameBases_append]
    rfl
  refine ⟨?_, ?_, ?_, ?_⟩
  · rw [hb, List.zipWith_append (by rw [h.bases_length, h.offs_length]), h.sums, List.map_append]
    simp
  · rw [hb, List.length_append, List.length_append, h.bases_length]
  · rw [List.length_append, List.length_append, h.offs_length]
    rfl
  · intro f hf
    rcases List.mem_append.mp hf with hf | hf
    · exact h.counts_pos f hf
    · rw [List.mem_singleton.mp hf]
      exact Nat.one_pos

/-- A match in the last frame. -/
theorem FramesFor.extend {b : UInt64} {c : ℕ} (h : FramesFor (table ++ [(b, c)]) offs addrs)
    {a : UInt64} (hle : b ≤ a) (hlt : a - b < 0x100000000) :
    FramesFor (table ++ [(b, c + 1)]) (offs ++ [(a - b).toUInt32]) (addrs ++ [a]) := by
  have hb : frameBases (table ++ [(b, c + 1)]) = frameBases (table ++ [(b, c)]) ++ [b] := by
    rw [frameBases_append, frameBases_append, List.append_assoc]
    simp only [frameBases_cons, frameBases_nil, List.append_nil]
    rw [List.replicate_succ']
  have hsub : (a - b).toNat = a.toNat - b.toNat := UInt64.toNat_sub_of_le _ _ hle
  have hle' := UInt64.le_iff_toNat_le.mp hle
  have hlt' : (a - b).toNat < 4294967296 := UInt64.lt_iff_toNat_lt.mp hlt
  refine ⟨?_, ?_, ?_, ?_⟩
  · rw [hb, List.zipWith_append (by rw [h.bases_length, h.offs_length]), h.sums, List.map_append]
    congr 1
    simp only [List.zipWith_cons_cons, List.zipWith_nil_left, List.map_cons, List.map_nil,
      UInt64.toNat_toUInt32, List.cons.injEq, and_true]
    omega
  · rw [hb, List.length_append, List.length_append, h.bases_length]
    rfl
  · rw [List.length_append, List.length_append, h.offs_length]
    rfl
  · intro f hf
    rcases List.mem_append.mp hf with hf | hf
    · exact h.counts_pos f (List.mem_append_left _ hf)
    · rw [List.mem_singleton.mp hf]
      exact Nat.succ_pos c

end Write

/-! ### Reading -/

/-- The decoder of single rows takes the base of the row. -/
theorem reconstruct_placeFrames {table : List (UInt64 × ℕ)} {i : ℕ} {b : UInt64}
    (h : (frameBases table)[i]? = some b) (start : ℕ) (o : UInt32) :
    reconstruct (placeFrames start table) (start + i) o =
      if o.toUInt64 ≤ 0xFFFFFFFFFFFFFFFF - b then b + o.toUInt64 else 0 := by
  induction table generalizing start i with
  | nil => simp at h
  | cons f table ih =>
    obtain ⟨base, count⟩ := f
    rw [frameBases_cons] at h
    simp only at h
    rw [placeFrames, reconstruct, List.find?_cons]
    by_cases hi : i < count
    · have hb : b = base := by
        rw [List.getElem?_append_left (by simpa using hi), List.getElem?_replicate,
          if_pos hi] at h
        exact (Option.some.inj h).symm
      have hc : (decide (start ≤ start + i) && decide (start + i - start < count)) = true := by
        simp [hi]
      rw [hc, hb]
    · have hc : (decide (start ≤ start + i) && decide (start + i - start < count)) = false := by
        simp only [Nat.le_add_right, decide_true, Nat.add_sub_cancel_left, Bool.true_and,
          decide_eq_false_iff_not]
        exact hi
      rw [List.getElem?_append_right (by simpa using hi), List.length_replicate] at h
      have := ih h (start + count)
      rw [show start + count + (i - count) = start + i by omega, reconstruct] at this
      rw [hc]
      exact this

theorem base_add_offset {a b : UInt64} {o : UInt32} (h : b.toNat + o.toNat = a.toNat) :
    o.toUInt64 ≤ 0xFFFFFFFFFFFFFFFF - b ∧ b + o.toUInt64 = a := by
  have ha := a.toNat_lt
  have hb : b ≤ 0xFFFFFFFFFFFFFFFF := by
    rw [UInt64.le_iff_toNat_le]
    simp only [UInt64.reduceToNat]
    omega
  constructor
  · rw [UInt64.le_iff_toNat_le, UInt64.toNat_sub_of_le _ _ hb]
    simp only [UInt32.toNat_toUInt64, UInt64.reduceToNat]
    omega
  · apply UInt64.toNat_inj.mp
    rw [UInt64.toNat_add, UInt32.toNat_toUInt64]
    omega

section Read

variable {table : List (UInt64 × ℕ)} {offs : List UInt32} {addrs : List UInt64}

theorem FramesFor.base_of (h : FramesFor table offs addrs) {i : ℕ} {a : UInt64} {o : UInt32}
    (ha : addrs[i]? = some a) (ho : offs[i]? = some o) :
    ∃ b, (frameBases table)[i]? = some b ∧ b.toNat + o.toNat = a.toNat := by
  have hi : i < (frameBases table).length := by
    rw [h.bases_length]
    exact (List.getElem?_eq_some_iff.mp ha).1
  refine ⟨(frameBases table)[i], List.getElem?_eq_getElem hi, ?_⟩
  have hs : (List.zipWith (fun b o => b.toNat + o.toNat) (frameBases table) offs)[i]?
      = (addrs.map UInt64.toNat)[i]? := by rw [h.sums]
  rw [List.getElem?_zipWith_eq_some.mpr ⟨_, _, List.getElem?_eq_getElem hi, ho, rfl⟩,
    List.getElem?_map, ha] at hs
  exact Option.some.inj hs

theorem FramesFor.reconstruct_eq (h : FramesFor table offs addrs) {i : ℕ} {a : UInt64}
    {o : UInt32} (ha : addrs[i]? = some a) (ho : offs[i]? = some o) :
    reconstruct (placeFrames 0 table) i o = a := by
  obtain ⟨b, hb, hsum⟩ := h.base_of ha ho
  obtain ⟨hle, hadd⟩ := base_add_offset hsum
  have := reconstruct_placeFrames hb 0 o
  rw [Nat.zero_add] at this
  rw [this, if_pos hle, hadd]

theorem dropWhile_placeFrames (table : List (UInt64 × ℕ)) (start i : ℕ)
    (hi : i < (frameBases table).length) :
    ∃ base count rest start' i', i' < count ∧ start' + i' = start + i ∧
      (placeFrames start table).dropWhile (fun f => decide (f.start + f.count ≤ start + i))
        = placeFrames start' ((base, count) :: rest) ∧
      (frameBases ((base, count) :: rest)).drop i' = (frameBases table).drop i := by
  induction table generalizing start i with
  | nil => simp at hi
  | cons f table ih =>
    obtain ⟨base, count⟩ := f
    rw [placeFrames, List.dropWhile_cons]
    by_cases hc : i < count
    · refine ⟨base, count, table, start, i, hc, rfl, ?_, rfl⟩
      rw [if_neg (by simp only [decide_eq_true_eq]; omega)]
      rfl
    · rw [if_pos (by simp only [decide_eq_true_eq]; omega)]
      have hlen : i - count < (frameBases table).length := by
        rw [frameBases_cons, List.length_append, List.length_replicate] at hi
        simp only at hi
        omega
      obtain ⟨b, c, rest, s', i', h1, h2, h3, h4⟩ := ih (start + count) (i - count) hlen
      rw [show start + count + (i - count) = start + i by omega] at h2 h3
      refine ⟨b, c, rest, s', i', h1, h2, h3, ?_⟩
      have hdrop : (List.replicate count base).drop i = [] :=
        List.drop_eq_nil_of_le (by simpa using hc)
      rw [h4, frameBases_cons, List.drop_append, hdrop, List.length_replicate, List.nil_append]

theorem decodeOffsets_placeFrames (os : List UInt32) (table : List (UInt64 × ℕ)) (start i : ℕ)
    (as : List UInt64)
    (hsum : List.zipWith (fun b o => b.toNat + o.toNat) ((frameBases table).drop i) os
      = as.map UInt64.toNat)
    (hlen : i + os.length ≤ (frameBases table).length) :
    ShardReader.decodeOffsets (placeFrames start table) (start + i) os = some as := by
  induction os generalizing table start i as with
  | nil =>
    rw [List.zipWith_nil_right] at hsum
    rw [List.map_eq_nil_iff.mp hsum.symm]
    rfl
  | cons o os ih =>
    rw [List.length_cons] at hlen
    obtain ⟨b, c, rest, s', i', h1, h2, h3, h4⟩ := dropWhile_placeFrames table start i (by omega)
    -- the row's base heads what is left of the bases
    have hhead : (frameBases ((b, c) :: rest)).drop i'
        = b :: (frameBases ((b, c) :: rest)).drop (i' + 1) := by
      have hb : i' < (frameBases ((b, c) :: rest)).length := by
        rw [frameBases_cons, List.length_append, List.length_replicate]
        simp only
        omega
      rw [List.drop_eq_getElem_cons hb]
      congr 1
      simp only [frameBases_cons]
      rw [List.getElem_append_left (by simpa using h1), List.getElem_replicate]
    rw [← h4, hhead, List.zipWith_cons_cons] at hsum
    obtain ⟨a, as', rfl, ha, has⟩ := List.map_eq_cons_iff.mp hsum.symm
    obtain ⟨hle, hadd⟩ := base_add_offset ha.symm
    have hlen' : i' + 1 + os.length ≤ (frameBases ((b, c) :: rest)).length := by
      have := congrArg List.length h4
      simp only [List.length_drop] at this
      omega
    have hrest := ih ((b, c) :: rest) s' (i' + 1) as' has.symm hlen'
    rw [ShardReader.decodeOffsets, h3, placeFrames]
    rw [placeFrames] at hrest
    simp only
    rw [if_neg (UInt64.not_lt.mpr hle), show start + i + 1 = s' + (i' + 1) by omega, hrest, hadd]
    rfl

theorem FramesFor.decodeOffsets_eq (h : FramesFor table offs addrs) {i n : ℕ}
    (hin : i + n ≤ addrs.length) :
    ShardReader.decodeOffsets (placeFrames 0 table) i ((offs.drop i).take n)
      = some ((addrs.drop i).take n) := by
  have hlen : ((offs.drop i).take n).length = n := by
    rw [List.length_take, List.length_drop, h.offs_length]
    omega
  have hb := h.bases_length
  have hsum : List.zipWith (fun b o => b.toNat + o.toNat) ((frameBases table).drop i)
      ((offs.drop i).take n) = ((addrs.drop i).take n).map UInt64.toNat := by
    rw [List.map_take, List.map_drop, ← h.sums, List.drop_zipWith, List.take_zipWith]
    apply List.ext_getElem
    · simp
    · intro k h1 h2
      simp
  have := decodeOffsets_placeFrames ((offs.drop i).take n) table 0 i _ hsum (by omega)
  rw [Nat.zero_add] at this
  exact this

end Read

end CheatEngine
