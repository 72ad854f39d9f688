import Mathlib.Data.List.DropRight
import Mathlib.Data.List.Range
import Mathlib.Algebra.Order.Group.Nat

/-!
# Contiguous parts of a list

Work on a list is often split into `n` runs of at most `per` neighbours, and each run into
batches.  The runs, one after the other, are the list.

* `slice` — the elements with indices in `[b, e)`;
* `slices_cover` — **PROVED**: clamped runs of equal length cover the list in order;
* `slice_split` — **PROVED**: a slice is a shorter one followed by the rest;
* `trim` — a list without the elements of a kind at both ends;
* `trim_append`, `trim_split` — **PROVED**: what is trimmed and what is left make up the list;
* `foldl_range` — **PROVED**: a loop over the indices of a list is the loop over the list.
-/

namespace Slices

variable {α β : Type*}

/-- The elements with indices in `[b, e)`. -/
def slice (xs : List α) (b e : ℕ) : List α := (xs.drop b).take (e - b)

theorem slice_length (xs : List α) {b e : ℕ} (he : e ≤ xs.length) :
    (slice xs b e).length = e - b := by
  rw [slice, List.length_take, List.length_drop]
  omega

theorem slice_split (xs : List α) {b m e : ℕ} (hbm : b ≤ m) (hme : m ≤ e) :
    slice xs b e = slice xs b m ++ slice xs m e := by
  have hdrop : xs.drop m = (xs.drop b).drop (m - b) := by
    rw [List.drop_drop]
    congr 1
    omega
  rw [slice, slice, slice, hdrop, show e - b = (m - b) + (e - m) by omega, List.take_add]

theorem slice_empty (xs : List α) (b : ℕ) : slice xs b b = [] := by
  rw [slice, Nat.sub_self, List.take_zero]

theorem slice_all (xs : List α) : slice xs 0 xs.length = xs := by
  rw [slice, List.drop_zero, Nat.sub_zero, List.take_length]

/-- The first `n` runs of `per` neighbours, clamped to the list. -/
theorem slices_prefix (xs : List α) (per n : ℕ) :
    (List.range n).flatMap (fun t =>
        slice xs (min xs.length (t * per)) (min xs.length (min xs.length (t * per) + per))) =
      slice xs 0 (min xs.length (n * per)) := by
  induction n with
  | zero =>
    rw [Nat.zero_mul, Nat.min_zero, slice_empty]
    rfl
  | succ n ih =>
    have hend : min xs.length (min xs.length (n * per) + per)
        = min xs.length ((n + 1) * per) := by
      rw [Nat.add_mul, Nat.one_mul]
      omega
    have hle : min xs.length (n * per) ≤ min xs.length ((n + 1) * per) := by
      rw [Nat.add_mul]
      omega
    rw [List.range_succ, List.flatMap_append, ih, List.flatMap_singleton, hend,
      ← slice_split xs (Nat.zero_le _) hle]

theorem slices_cover (xs : List α) {per n : ℕ} (h : xs.length ≤ n * per) :
    (List.range n).flatMap (fun t =>
        slice xs (min xs.length (t * per)) (min xs.length (min xs.length (t * per) + per))) =
      xs := by
  rw [ slices_prefix, Nat.min_eq_left h, slice_all]

/-- Rounded up, `n` runs hold everything. -/
theorem le_mul_ceil (total : ℕ) {n : ℕ} (hn : 0 < n) : total ≤ n * ((total + n - 1) / n) := by
  have hdiv := Nat.div_add_mod (total + n - 1) n
  have hmod := Nat.mod_lt (total + n - 1) hn
  omega

theorem foldl_range {xs : List α} {step : β → ℕ → β} {step' : β → α → β}
    (h : ∀ i a b, xs[i]? = some a → step b i = step' b a) (b : β) :
    (List.range xs.length).foldl step b = xs.foldl step' b := by
  induction xs using List.reverseRecOn with
  | nil => rfl
  | append_singleton ys a ih =>
    have hlast : ∀ b, step b ys.length = step' b a := by
      intro b
      exact h _ _ _ (by rw [List.getElem?_append_right (Nat.le_refl _), Nat.sub_self]; rfl)
    rw [List.length_append, List.length_singleton, List.range_succ, List.foldl_append,
      List.foldl_append, List.foldl_cons, List.foldl_nil, hlast, ih]
    · rfl
    · intro i c b hi
      have hlt := (List.getElem?_eq_some_iff.mp hi).1
      exact h i c b (by rw [List.getElem?_append_left hlt]; exact hi)

/-- The list without the elements at its ends that satisfy a test. -/
def trim (p : α → Bool) (s : List α) : List α := ((s.dropWhile p).reverse.dropWhile p).reverse

theorem dropWhile_eq_self {p : α → Bool} {s : List α} (h : ∀ b ∈ s, p b = false) :
    s.dropWhile p = s := by
  cases s with
  | nil => rfl
  | cons b s => simp [h b List.mem_cons_self]

theorem trim_append {p : α → Bool} {before core after : List α}
    (hbefore : ∀ b ∈ before, p b = true) (hafter : ∀ b ∈ after, p b = true)
    (hcore : ∀ b ∈ core, p b = false) : trim p (before ++ (core ++ after)) = core := by
  unfold trim
  rw [List.dropWhile_append_of_pos hbefore]
  cases core with
  | nil =>
    rw [List.nil_append, List.dropWhile_eq_nil_iff.mpr hafter]
    rfl
  | cons c core =>
    have hc := hcore c List.mem_cons_self
    rw [List.cons_append, List.dropWhile_cons_of_neg (by simp [hc]), ← List.cons_append,
      List.reverse_append,
      List.dropWhile_append_of_pos fun b hb => hafter b (List.mem_reverse.mp hb),
      dropWhile_eq_self fun b hb => hcore b (List.mem_reverse.mp hb), List.reverse_reverse]

theorem trim_split (p : α → Bool) (s : List α) : ∃ before after, (∀ b ∈ before, p b = true) ∧
    (∀ b ∈ after, p b = true) ∧ s = before ++ (trim p s ++ after) := by
  refine ⟨s.takeWhile p, ((s.dropWhile p).reverse.takeWhile p).reverse,
    fun b hb => List.mem_takeWhile_imp hb,
    fun b hb => List.mem_takeWhile_imp (List.mem_reverse.mp hb), ?_⟩
  unfold trim
  rw [← List.reverse_append, List.takeWhile_append_dropWhile, List.reverse_reverse,
    List.takeWhile_append_dropWhile]

theorem trim_head {p : α → Bool} {s : List α} {b : α} (h : (trim p s).head? = some b) :
    p b = false := by
  obtain ⟨rest, hrest⟩ := List.head?_eq_some_iff.mp h
  have hsuffix : (s.dropWhile p).reverse.dropWhile p <:+ (s.dropWhile p).reverse :=
    List.dropWhile_suffix p
  obtain ⟨t, ht⟩ := hsuffix.reverse
  rw [List.reverse_reverse] at ht
  rw [trim] at hrest
  rw [hrest] at ht
  have hhead : (s.dropWhile p).head? = some b := by
    rw [← ht]
    rfl
  have hnot := List.head?_dropWhile_not p s
  rw [hhead] at hnot
  exact hnot

theorem dropWhile_of_head {p : α → Bool} {s : List α} (h : ∀ b, s.head? = some b → p b = false) :
    s.dropWhile p = s := by
  cases s with
  | nil => rfl
  | cons b s => rw [List.dropWhile_cons_of_neg (by simp [h b rfl])]

/-- A list that neither begins nor ends with such an element is trimmed already. -/
theorem trim_eq_self {p : α → Bool} {s : List α} (hhead : ∀ b, s.head? = some b → p b = false)
    (hlast : ∀ b, s.getLast? = some b → p b = false) : trim p s = s := by
  rw [trim, dropWhile_of_head hhead, dropWhile_of_head fun b hb => hlast b (by
    rwa [List.head?_reverse] at hb), List.reverse_reverse]

theorem trim_last {p : α → Bool} {s : List α} {b : α} (h : (trim p s).getLast? = some b) :
    p b = false := by
  rw [trim, List.getLast?_reverse] at h
  have hnot := List.head?_dropWhile_not p (s.dropWhile p).reverse
  rw [h] at hnot
  exact hnot

theorem trim_trim_of_imp {p q : α → Bool} (h : ∀ b, q b = true → p b = true) (s : List α) :
    trim q (trim p s) = trim p s := by
  have himp : ∀ b, p b = false → q b = false := fun b hb => by
    by_contra hq
    rw [h b (by simpa using hq)] at hb
    cases hb
  exact trim_eq_self (fun b hb => himp b (trim_head hb)) fun b hb => himp b (trim_last hb)

end Slices
