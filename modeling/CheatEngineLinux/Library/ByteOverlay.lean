import Mathlib.Data.List.Basic

/-!
# Bytes laid over a memory

A memory is a function `ℕ → β`; a saved range is a pair `(address, bytes)`.

* `byteAt`, `lay`, `layAll`: one range read at an address, one range and a list of ranges written.
* `layBytes`: a buffer with the overlap of another range copied into it.
* `firstAt`: the byte of the first range over an address.

* **PROVED `layAll_apply`**: a list of ranges written in order leaves each cell with the byte of
  the last range over it, and every other cell alone.
-/

namespace ByteOverlay

variable {β : Type*}

/-! ### One range -/

/-- The byte that the range puts at `a`. -/
def byteAt (address : ℕ) (bytes : List β) (a : ℕ) : Option β :=
  if address ≤ a then bytes[a - address]? else none

theorem byteAt_isSome {address : ℕ} {bytes : List β} {a : ℕ} :
    (byteAt address bytes a).isSome ↔ address ≤ a ∧ a < address + bytes.length := by
  unfold byteAt
  split
  · rename_i h
    rw [Option.isSome_iff_ne_none, ne_eq, List.getElem?_eq_none_iff]
    omega
  · rename_i h
    simp only [Option.isSome_none, Bool.false_eq_true, false_iff]
    omega

theorem byteAt_eq_none {address : ℕ} {bytes : List β} {a : ℕ} :
    byteAt address bytes a = none ↔ a < address ∨ address + bytes.length ≤ a := by
  rw [← Option.not_isSome_iff_eq_none, byteAt_isSome]
  omega

theorem byteAt_eq_some {address : ℕ} {bytes : List β} {a : ℕ} {b : β} :
    byteAt address bytes a = some b ↔ address ≤ a ∧ bytes[a - address]? = some b := by
  unfold byteAt
  split
  · rename_i h
    exact (and_iff_right h).symm
  · rename_i h
    exact ⟨nofun, fun hb => absurd hb.1 h⟩

@[simp] theorem byteAt_nil (address a : ℕ) : byteAt address ([] : List β) a = none := by
  simp [byteAt]

theorem byteAt_take (address n : ℕ) (bytes : List β) (a : ℕ) :
    byteAt address (bytes.take n) a =
      if a < address + n then byteAt address bytes a else none := by
  unfold byteAt
  by_cases h : address ≤ a
  · rw [if_pos h, if_pos h, List.getElem?_take]
    by_cases hn : a < address + n
    · rw [if_pos hn, if_pos (by omega)]
    · rw [if_neg hn, if_neg (by omega)]
  · rw [if_neg h, if_neg h, ite_self]

theorem byteAt_drop (address n : ℕ) (bytes : List β) (a : ℕ) :
    byteAt (address + n) (bytes.drop n) a =
      if address + n ≤ a then byteAt address bytes a else none := by
  unfold byteAt
  by_cases h : address + n ≤ a
  · rw [if_pos h, if_pos h, if_pos (by omega), List.getElem?_drop]
    rw [show n + (a - (address + n)) = a - address by omega]
  · rw [if_neg h, if_neg h]

/-- The bytes of a memory in a range. -/
def slice (m : ℕ → β) (address n : ℕ) : List β :=
  (List.range n).map fun i => m (address + i)

@[simp] theorem slice_length (m : ℕ → β) (address n : ℕ) : (slice m address n).length = n := by
  simp [slice]

theorem slice_succ {m : ℕ → β} {a n : ℕ} :
    slice m a (n + 1) = m a :: slice m (a + 1) n := by
  rw [slice, List.range_succ_eq_map, List.map_cons, List.map_map]
  refine congrArg₂ List.cons rfl (List.map_congr_left fun i _ => ?_)
  exact congrArg m (by simp only [Nat.succ_eq_add_one]; omega)

theorem slice_append {m : ℕ → β} {a n : ℕ} (k : ℕ) :
    slice m a (n + k) = slice m a n ++ slice m (a + n) k := by
  rw [slice, List.range_add, List.map_append, List.map_map]
  refine congrArg₂ (· ++ ·) rfl (List.map_congr_left fun i _ => ?_)
  exact congrArg m (Nat.add_assoc ..).symm

theorem slice_take {m : ℕ → β} {a n k : ℕ} (h : k ≤ n) :
    (slice m a n).take k = slice m a k := by
  obtain ⟨d, rfl⟩ := Nat.exists_eq_add_of_le h
  rw [slice_append, List.take_append_of_le_length (by simp), List.take_of_length_le (by simp)]

theorem byteAt_append (address : ℕ) (xs ys : List β) (a : ℕ) :
    byteAt address (xs ++ ys) a =
      (byteAt (address + xs.length) ys a).or (byteAt address xs a) := by
  unfold byteAt
  by_cases h : address ≤ a
  · rw [if_pos h, if_pos h]
    by_cases hx : address + xs.length ≤ a
    · rw [if_pos hx, List.getElem?_append_right (by omega), List.getElem?_eq_none (l := xs)
        (by omega), Option.or_none,
        show a - address - xs.length = a - (address + xs.length) by omega]
    · rw [if_neg hx, List.getElem?_append_left (by omega), Option.none_or]
  · rw [if_neg h, if_neg h, if_neg (by omega), Option.or_none]

theorem byteAt_slice (m : ℕ → β) (address n a : ℕ) :
    byteAt address (slice m address n) a =
      if address ≤ a ∧ a < address + n then some (m a) else none := by
  unfold byteAt slice
  by_cases h : address ≤ a
  · rw [if_pos h, List.getElem?_map]
    by_cases hn : a - address < n
    · rw [List.getElem?_range hn, if_pos (by omega), Option.map_some,
        show address + (a - address) = a by omega]
    · rw [List.getElem?_eq_none (by simp; omega), if_neg (by omega), Option.map_none]
  · rw [if_neg h, if_neg (by omega)]

/-! ### Writing -/

/-- The memory with one range written. -/
def lay (m : ℕ → β) (address : ℕ) (bytes : List β) : ℕ → β :=
  fun a => (byteAt address bytes a).getD (m a)

theorem lay_of_none {m : ℕ → β} {address : ℕ} {bytes : List β} {a : ℕ}
    (h : byteAt address bytes a = none) : lay m address bytes a = m a := by
  rw [lay, h, Option.getD_none]

theorem lay_of_some {m : ℕ → β} {address : ℕ} {bytes : List β} {a : ℕ} {b : β}
    (h : byteAt address bytes a = some b) : lay m address bytes a = b := by
  rw [lay, h, Option.getD_some]

theorem lay_append (m : ℕ → β) (address : ℕ) (xs ys : List β) :
    lay m address (xs ++ ys) = lay (lay m address xs) (address + xs.length) ys := by
  funext a
  unfold lay
  rw [byteAt_append]
  cases byteAt (address + xs.length) ys a with
  | none => rw [Option.none_or, Option.getD_none]
  | some b => rfl

@[simp] theorem lay_nil (m : ℕ → β) (address : ℕ) : lay m address [] = m := by
  funext a
  rw [lay, byteAt_nil, Option.getD_none]

/-- The memory with ranges written one after the other. -/
def layAll (m : ℕ → β) (ranges : List (ℕ × List β)) : ℕ → β :=
  ranges.foldl (fun m r => lay m r.1 r.2) m

/-- The byte of the first range over `a`. -/
def firstAt (ranges : List (ℕ × List β)) (a : ℕ) : Option β :=
  ranges.findSome? fun r => byteAt r.1 r.2 a

@[simp] theorem firstAt_nil (a : ℕ) : firstAt ([] : List (ℕ × List β)) a = none := rfl

theorem firstAt_cons (r : ℕ × List β) (ranges : List (ℕ × List β)) (a : ℕ) :
    firstAt (r :: ranges) a = (byteAt r.1 r.2 a).or (firstAt ranges a) := by
  unfold firstAt
  rw [List.findSome?_cons]
  cases byteAt r.1 r.2 a <;> rfl

theorem firstAt_append (xs ys : List (ℕ × List β)) (a : ℕ) :
    firstAt (xs ++ ys) a = (firstAt xs a).or (firstAt ys a) := by
  induction xs with
  | nil => rfl
  | cons x xs ih => rw [List.cons_append, firstAt_cons, firstAt_cons, ih, Option.or_assoc]

theorem firstAt_isSome {ranges : List (ℕ × List β)} {a : ℕ} :
    (firstAt ranges a).isSome ↔ ∃ r ∈ ranges, (byteAt r.1 r.2 a).isSome := by
  unfold firstAt
  rw [List.findSome?_isSome_iff]

theorem layAll_apply (m : ℕ → β) (ranges : List (ℕ × List β)) (a : ℕ) :
    layAll m ranges a = (firstAt ranges.reverse a).getD (m a) := by
  induction ranges generalizing m with
  | nil => rfl
  | cons r ranges ih =>
    rw [layAll, List.foldl_cons, ← layAll, ih, List.reverse_cons, firstAt_append]
    cases hrest : firstAt ranges.reverse a with
    | some b => rfl
    | none =>
      rw [firstAt_cons, firstAt_nil, Option.or_none, Option.none_or, Option.getD_none, lay]

/-! ### Copying an overlap into a buffer -/

/-- The buffer `bytes` at `address`, with what the range `source` has there copied into it. -/
def layBytes (address : ℕ) (bytes : List β) (source : ℕ × List β) : List β :=
  bytes.mapIdx fun i b => (byteAt source.1 source.2 (address + i)).getD b

theorem byteAt_layBytes (address : ℕ) (bytes : List β) (source : ℕ × List β) (a : ℕ) :
    byteAt address (layBytes address bytes source) a =
      (byteAt address bytes a).map fun b => (byteAt source.1 source.2 a).getD b := by
  by_cases h : address ≤ a
  · have hbuffer : ∀ bytes : List β, byteAt address bytes a = bytes[a - address]? :=
      fun bytes => if_pos h
    rw [hbuffer, hbuffer, layBytes, List.getElem?_mapIdx,
      show address + (a - address) = a by omega]
  · have hbuffer : ∀ bytes : List β, byteAt address bytes a = none := fun bytes => if_neg h
    rw [hbuffer, hbuffer, Option.map_none]

/-- Ranges laid into a buffer one after the other, the last one first in `ranges.reverse`. -/
theorem byteAt_foldl_layBytes (address : ℕ) (bytes : List β) (ranges : List (ℕ × List β)) (a : ℕ) :
    byteAt address (ranges.foldl (layBytes address) bytes) a =
      (byteAt address bytes a).map fun b => (firstAt ranges.reverse a).getD b := by
  induction ranges generalizing bytes with
  | nil => simp
  | cons r ranges ih =>
    rw [List.foldl_cons, ih, byteAt_layBytes, Option.map_map, List.reverse_cons, firstAt_append]
    congr 1
    funext b
    rw [Function.comp_apply, firstAt_cons, firstAt_nil, Option.or_none]
    cases firstAt ranges.reverse a <;> rfl

end ByteOverlay
