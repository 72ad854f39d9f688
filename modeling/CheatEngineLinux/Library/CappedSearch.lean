import Mathlib.Data.List.Range
import Mathlib.Data.List.Sort
import Mathlib.Algebra.Order.Group.Nat

/-!
# Searching for at most so many hits

A search goes over positions and keeps what it finds, until it has `cap` hits and finds one more:
then it stops, and its answer is marked as cut.

* `search` — one run of positions, `searchAll` — several runs, one after the other;
* `search_eq`, `searchAll_eq` — **PROVED**: the answer is the list of all hits, `capped`;
* `filterMap_positions` — **PROVED**: positions that leave nothing out find what all of them find.
-/

namespace CappedSearch

variable {ι α : Type*}

/-- The first `cap` of a list, and whether there are more. -/
def capped (cap : ℕ) (xs : List α) : List α × Bool := (xs.take cap, decide (cap < xs.length))

/-- The positions of one run. -/
def search (cap : ℕ) (test : ι → Option α) : List α → List ι → List α × Bool
  | hits, [] => (hits, false)
  | hits, i :: rest =>
    match test i with
    | none => search cap test hits rest
    | some x => if cap ≤ hits.length then (hits, true) else search cap test (hits ++ [x]) rest

/-- Several runs. -/
def searchAll (cap : ℕ) (test : ι → Option α) : List α → List (List ι) → List α × Bool
  | hits, [] => (hits, false)
  | hits, run :: runs =>
    match search cap test hits run with
    | (hits, true) => (hits, true)
    | (hits, false) => searchAll cap test hits runs

variable {cap : ℕ} {test : ι → Option α} {hits : List α}

theorem capped_of_le {xs : List α} (h : xs.length ≤ cap) : capped cap xs = (xs, false) := by
  rw [capped, List.take_of_length_le h, decide_eq_false (Nat.not_lt.mpr h)]

/-- A full answer stays what it is, whatever follows. -/
theorem capped_append {xs : List α} (h : cap < xs.length) (ys : List α) :
    capped cap (xs ++ ys) = capped cap xs := by
  rw [capped, capped, List.take_append_of_le_length h.le, decide_eq_true h,
    decide_eq_true (by rw [List.length_append]; omega)]

theorem search_eq (h : hits.length ≤ cap) (is : List ι) :
    search cap test hits is = capped cap (hits ++ is.filterMap test) := by
  induction is generalizing hits with
  | nil => rw [search, List.filterMap_nil, List.append_nil, capped_of_le h]
  | cons i is ih =>
    rw [search]
    cases htest : test i with
    | none => rw [List.filterMap_cons_none htest, ih h]
    | some x =>
      rw [List.filterMap_cons_some htest]
      dsimp only
      split
      · rename_i hfull
        have hlen : hits.length = cap := Nat.le_antisymm h hfull
        rw [capped, ← hlen, List.take_left, List.length_append, List.length_cons,
          decide_eq_true (by omega)]
      · rename_i hroom
        rw [ih (by rw [List.length_append, List.length_singleton]; omega), List.append_assoc,
          List.singleton_append]

theorem searchAll_eq (h : hits.length ≤ cap) (runs : List (List ι)) :
    searchAll cap test hits runs = capped cap (hits ++ runs.flatten.filterMap test) := by
  induction runs generalizing hits with
  | nil => rw [searchAll, List.flatten_nil, List.filterMap_nil, List.append_nil, capped_of_le h]
  | cons run runs ih =>
    rw [searchAll, search_eq h, List.flatten_cons, List.filterMap_append, ← List.append_assoc]
    by_cases hall : (hits ++ run.filterMap test).length ≤ cap
    · rw [capped_of_le hall]
      exact ih hall
    · rw [capped_append (Nat.not_le.mp hall), capped, decide_eq_true (Nat.not_le.mp hall)]

/-- Ascending positions that lie below `n` and leave nothing out find what all of them find. -/
theorem filterMap_positions {n : ℕ} {positions : List ℕ} (hsorted : positions.Pairwise (· < ·))
    (hbelow : ∀ off ∈ positions, off < n) {test found : ℕ → Option α}
    (hfound : ∀ off ∈ positions, test off = found off)
    (hrest : ∀ off, off < n → off ∉ positions → found off = none) :
    positions.filterMap test = (List.range n).filterMap found := by
  have hpositions : positions = (List.range n).filter fun off => decide (off ∈ positions) := by
    refine hsorted.eq_of_mem_iff (List.pairwise_lt_range.filter _) fun off => ?_
    rw [List.mem_filter, List.mem_range, decide_eq_true_iff]
    exact ⟨fun h => ⟨hbelow off h, h⟩, And.right⟩
  rw [List.filterMap_congr hfound]
  conv_lhs => rw [hpositions, List.filterMap_filter]
  refine List.filterMap_congr fun off hoff => ?_
  split
  · rfl
  · rename_i hnot
    rw [hrest off (List.mem_range.mp hoff) (by simpa using hnot)]

end CappedSearch
