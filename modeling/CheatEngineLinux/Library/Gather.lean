import Mathlib.Data.List.TakeWhile
import Mathlib.Data.List.Range
import Mathlib.Algebra.Order.Group.Nat

/-!
# Copying up to the first missing value

Values are gathered one after the other and written to a list of places, until one is missing.

* `leading` — the values before the first missing one;
* `scatter` — a buffer with the values written to their places;
* `scatter_range` — **PROVED**: neighbouring places get the values in order, nothing else changes;
* `leading_records` — **PROVED**: of records of one size, the whole ones before the first that
  lacks a value are copied in full, and that one is not.
-/

namespace Gather

variable {α ι : Type*}

/-- The values before the first missing one. -/
def leading : List (Option α) → List α
  | some a :: xs => a :: leading xs
  | _ => []

theorem leading_append_some (as : List α) (ys : List (Option α)) :
    leading (as.map some ++ ys) = as ++ leading ys := by
  induction as with
  | nil => rfl
  | cons a as ih =>
    rw [List.map_cons, List.cons_append, leading, ih, List.cons_append]

theorem leading_append_of_missing {xs : List (Option α)} (h : none ∈ xs) (ys : List (Option α)) :
    leading (xs ++ ys) = leading xs ∧ (leading xs).length < xs.length := by
  induction xs with
  | nil => exact absurd h List.not_mem_nil
  | cons x xs ih =>
    cases x with
    | none => exact ⟨rfl, Nat.succ_pos _⟩
    | some a =>
      have hrest : none ∈ xs := by simpa using h
      rw [List.cons_append, leading, leading, (ih hrest).1, List.length_cons, List.length_cons]
      exact ⟨rfl, Nat.succ_lt_succ (ih hrest).2⟩

theorem exists_map_some {xs : List (Option α)} (h : xs.all Option.isSome = true) :
    ∃ as : List α, xs = as.map some := by
  induction xs with
  | nil => exact ⟨[], rfl⟩
  | cons x xs ih =>
    rw [List.all_cons, Bool.and_eq_true] at h
    obtain ⟨a, rfl⟩ := Option.isSome_iff_exists.mp h.1
    obtain ⟨as, rfl⟩ := ih h.2
    exact ⟨a :: as, rfl⟩

theorem none_mem_of_not_all {xs : List (Option α)} (h : xs.all Option.isSome ≠ true) :
    none ∈ xs := by
  rw [ne_eq, List.all_eq_true, not_forall] at h
  obtain ⟨x, hx⟩ := h
  rw [Classical.not_imp] at hx
  obtain ⟨hmem, hnone⟩ := hx
  rwa [Option.not_isSome_iff_eq_none.mp hnone] at hmem

/-- The gathered values are those at their positions, and the next one is missing. -/
theorem getElem?_leading (xs : List (Option α)) (j : ℕ) (hj : j < (leading xs).length) :
    xs[j]? = some (leading xs)[j]? := by
  induction xs generalizing j with
  | nil => exact absurd hj (Nat.not_lt_zero j)
  | cons x xs ih =>
    cases x with
    | none => exact absurd hj (Nat.not_lt_zero j)
    | some a =>
      cases j with
      | zero => rfl
      | succ j =>
        rw [leading, List.length_cons] at hj
        rw [List.getElem?_cons_succ, ih j (by omega), leading, List.getElem?_cons_succ]

theorem leading_stops {xs : List (Option α)} (h : (leading xs).length < xs.length) :
    xs[(leading xs).length]? = some none := by
  induction xs with
  | nil => exact absurd h (Nat.not_lt_zero _)
  | cons x xs ih =>
    cases x with
    | none => rfl
    | some a =>
      rw [leading, List.length_cons, List.length_cons] at h
      rw [leading, List.length_cons, List.getElem?_cons_succ]
      exact ih (by omega)

theorem leading_length_le (xs : List (Option α)) : (leading xs).length ≤ xs.length := by
  induction xs with
  | nil => exact Nat.le_refl _
  | cons x xs ih =>
    cases x with
    | none => exact Nat.zero_le _
    | some a =>
      rw [leading, List.length_cons, List.length_cons]
      omega

theorem leading_map_some (as : List α) : leading (as.map some) = as := by
  have happend := leading_append_some as []
  simpa [leading] using happend

/-- Where all values are gathered, none is missing. -/
theorem leading_full {xs : List (Option α)} (h : xs.length ≤ (leading xs).length) :
    xs = (leading xs).map some := by
  by_cases hall : xs.all Option.isSome = true
  · obtain ⟨as, rfl⟩ := exists_map_some hall
    rw [leading_map_some]
  · have hlt := (leading_append_of_missing (none_mem_of_not_all hall) []).2
    omega

/-- Gathering stops where a part of it stops. -/
theorem leading_append_of_short {xs : List (Option α)} (h : (leading xs).length < xs.length)
    (ys : List (Option α)) : leading (xs ++ ys) = leading xs := by
  refine (leading_append_of_missing (none_mem_of_not_all fun hall => ?_) ys).1
  obtain ⟨as, rfl⟩ := exists_map_some hall
  rw [leading_map_some, List.length_map] at h
  exact absurd h (Nat.lt_irrefl _)

/-! ### Leading elements -/

section good

variable {p : ι → Bool}

/-- How many elements in front, among the first `batch`, satisfy a test. -/
def goodCount (p : ι → Bool) (batch : ℕ) (is : List ι) : ℕ := ((is.take batch).takeWhile p).length

theorem goodCount_le (batch : ℕ) (is : List ι) : goodCount p batch is ≤ batch := by
  have h1 := (List.takeWhile_prefix p (l := is.take batch)).length_le
  have h2 := List.length_take_le batch is
  unfold goodCount
  omega

theorem goodCount_good {batch : ℕ} {is : List ι} {j : ℕ} {i : ι} (hj : j < goodCount p batch is)
    (hi : is[j]? = some i) : p i = true := by
  have hsplit := List.takeWhile_append_dropWhile (p := p) (l := is.take batch)
  have hat : ((is.take batch).takeWhile p)[j]? = some i := by
    rw [← List.getElem?_append_left hj, hsplit,
      List.getElem?_take_of_lt (hj.trans_le (goodCount_le batch is)), hi]
  exact List.mem_takeWhile_imp (List.mem_iff_getElem?.mpr ⟨j, hat⟩)

theorem goodCount_bad {batch : ℕ} {is : List ι} (hbatch : batch ≤ is.length)
    (h : goodCount p batch is < batch) :
    ∃ i, is[goodCount p batch is]? = some i ∧ p i = false := by
  have hsplit := List.takeWhile_append_dropWhile (p := p) (l := is.take batch)
  have hhead := List.head?_dropWhile_not p (is.take batch)
  have hlength := congrArg List.length hsplit
  rw [List.length_append, List.length_take, ← goodCount] at hlength
  cases hrest : (is.take batch).dropWhile p with
  | nil =>
    rw [hrest, List.length_nil] at hlength
    omega
  | cons i rest =>
    rw [hrest] at hhead hsplit
    refine ⟨i, ?_, by simpa using hhead⟩
    rw [← List.getElem?_take_of_lt h, ← hsplit, goodCount,
      List.getElem?_append_right (Nat.le_refl _), Nat.sub_self]
    rfl

/-- The results of a test whose first elements satisfy it. -/
theorem map_eq_replicate_append {n : ℕ} {is : List ι} (hn : n ≤ is.length)
    (h : ∀ j < n, ∀ i, is[j]? = some i → p i = true) :
    is.map p = List.replicate n true ++ (is.drop n).map p := by
  conv_lhs => rw [← List.take_append_drop n is, List.map_append]
  congr 1
  rw [List.eq_replicate_iff]
  refine ⟨by rw [List.length_map, List.length_take]; omega, fun b hb => ?_⟩
  obtain ⟨i, hi, rfl⟩ := List.mem_map.mp hb
  obtain ⟨j, hj⟩ := List.mem_iff_getElem?.mp hi
  have hlt : j < n := by
    have := (List.getElem?_eq_some_iff.mp hj).1
    rw [List.length_take] at this
    omega
  rw [List.getElem?_take_of_lt hlt] at hj
  exact h j hlt i hj

theorem map_goodCount {batch : ℕ} {is : List ι} (hbatch : batch ≤ is.length) :
    is.map p = List.replicate (goodCount p batch is) true ++
      (is.drop (goodCount p batch is)).map p :=
  map_eq_replicate_append ((goodCount_le batch is).trans hbatch) fun _ hj _ hi => goodCount_good hj hi

end good

/-! ### Places -/

/-- The buffer after the values have been written to their places. -/
def scatter : List ℕ → List α → (ℕ → α) → ℕ → α
  | p :: ps, a :: as, out => scatter ps as (Function.update out p a)
  | _, _, out => out

theorem scatter_range (s n : ℕ) (as : List α) (out : ℕ → α) (q : ℕ) :
    scatter (List.range' s n) as out q =
      if s ≤ q ∧ q < s + n then (as[q - s]?).getD (out q) else out q := by
  induction n generalizing s as out with
  | zero =>
    rw [if_neg (by omega)]
    rfl
  | succ n ih =>
    cases as with
    | nil =>
      split
      · rfl
      · rfl
    | cons a as =>
      rw [List.range'_succ, scatter, ih]
      by_cases hq : q = s
      · subst hq
        rw [if_neg (by omega), if_pos (by omega), Nat.sub_self]
        simp
      · rw [Function.update_of_ne hq]
        by_cases hin : s + 1 ≤ q ∧ q < s + 1 + n
        · rw [if_pos hin, if_pos (by omega), show q - s = (q - (s + 1)) + 1 by omega,
            List.getElem?_cons_succ]
        · rw [if_neg hin, if_neg (by omega)]

/-! ### Records -/

section records

variable {record : ι → List (Option α)} {size : ℕ}

def whole (record : ι → List (Option α)) (i : ι) : Bool := (record i).all Option.isSome

theorem leading_records (hsize : 0 < size) (hlength : ∀ i, (record i).length = size)
    (is : List ι) :
    (leading (is.flatMap record)).length / size = (is.takeWhile (whole record)).length := by
  induction is with
  | nil => simp [leading]
  | cons i is ih =>
    rw [List.flatMap_cons, List.takeWhile_cons]
    by_cases hwhole : whole record i = true
    · obtain ⟨as, has⟩ := exists_map_some hwhole
      have hcount : as.length = size := by
        have := hlength i
        rwa [has, List.length_map] at this
      rw [if_pos hwhole, has, leading_append_some, List.length_append, hcount,
        Nat.add_comm, Nat.add_div_right _ hsize, ih, List.length_cons]
    · obtain ⟨hsame, hlt⟩ := leading_append_of_missing (none_mem_of_not_all hwhole)
        (is.flatMap record)
      rw [hlength i] at hlt
      rw [if_neg hwhole, hsame, Nat.div_eq_of_lt hlt, List.length_nil]

theorem leading_record (hsize : 0 < size) (hlength : ∀ i, (record i).length = size)
    (is : List ι) {j : ℕ} {i : ι} (hi : is[j]? = some i)
    (hj : j < (is.takeWhile (whole record)).length) {b : ℕ} (hb : b < size) :
    (record i)[b]? = some (leading (is.flatMap record))[j * size + b]? := by
  have hcopied := leading_records hsize hlength is
  have hbefore : j * size + b < (leading (is.flatMap record)).length := by
    have hmul : (j + 1) * size ≤ (leading (is.flatMap record)).length := by
      rw [← Nat.le_div_iff_mul_le hsize, hcopied]
      exact hj
    rw [Nat.add_mul] at hmul
    omega
  rw [← getElem?_leading _ _ hbefore]
  clear hbefore hcopied hj
  induction is generalizing j with
  | nil => cases hi
  | cons k is ih =>
    rw [List.flatMap_cons]
    cases j with
    | zero =>
      cases hi
      rw [Nat.zero_mul, Nat.zero_add, List.getElem?_append_left (by rw [hlength]; exact hb)]
    | succ j =>
      rw [List.getElem?_append_right (by rw [hlength, Nat.add_mul]; omega), hlength,
        show (j + 1) * size + b - size = j * size + b by rw [Nat.add_mul]; omega]
      exact ih hi

end records

end Gather
