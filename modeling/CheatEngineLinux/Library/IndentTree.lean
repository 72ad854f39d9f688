import Mathlib.Data.List.TakeWhile
import Mathlib.Order.Lattice

/-!
# Trees written as indents

A tree in preorder is a sequence of depths: a row is under an earlier one while every row
since is deeper.

* `Under` — a row is in the subtree of an earlier one;
* `scopes` — the stack of a single pass over the rows;
* `mem_scopes` — **PROVED**: it holds the marked rows whose subtree is not over yet.
-/

namespace IndentTree

variable {α : Type*} [LinearOrder α]

/-- Row `i` is in the subtree of row `j`: every row after `j` up to `i` is deeper. -/
def Under (depth : ℕ → α) (j i : ℕ) : Prop := j < i ∧ ∀ k, j < k → k ≤ i → depth j < depth k

variable {depth : ℕ → α} {i j k : ℕ}

theorem Under.trans (hkj : Under depth k j) (hji : Under depth j i) : Under depth k i := by
  refine ⟨hkj.1.trans hji.1, fun m hkm hmi => ?_⟩
  rcases Nat.lt_or_ge j m with hjm | hmj
  · exact (hkj.2 j hkj.1 le_rfl).trans (hji.2 m hjm hmi)
  · exact hkj.2 m hkm hmj

/-! ### One pass -/

/-- The stack before row `i` of a pass that drops what is not shallower than a row and then
pushes it when it is marked. -/
def scopes (depth : ℕ → α) (marked : ℕ → Bool) : ℕ → List ℕ
  | 0 => []
  | i + 1 =>
    let scope := (scopes depth marked i).dropWhile fun j => decide (depth i ≤ depth j)
    if marked i then i :: scope else scope

variable {marked : ℕ → Bool}

/-- Of a stack that is deepest at its top, what is shallower than a row is left. -/
theorem mem_dropWhile_iff {stack : List ℕ} (h : stack.Pairwise fun j k => depth k < depth j) :
    k ∈ stack.dropWhile (fun j => decide (depth i ≤ depth j)) ↔ k ∈ stack ∧ depth k < depth i := by
  induction stack with
  | nil => simp
  | cons j stack ih =>
    rw [List.dropWhile_cons, List.mem_cons]
    split
    · rename_i hj
      have hj : depth i ≤ depth j := by simpa using hj
      rw [ih h.of_cons]
      refine and_congr_left fun hk => ⟨Or.inr, fun hmem => hmem.resolve_left ?_⟩
      rintro rfl
      exact absurd hk (not_lt.mpr hj)
    · rename_i hj
      have hj : depth j < depth i := by simpa using hj
      rw [List.mem_cons]
      refine (and_iff_left_of_imp fun hk => ?_).symm
      rcases hk with rfl | hk
      · exact hj
      · exact (List.rel_of_pairwise_cons h hk).trans hj

/-- The stack is deepest at its top. -/
theorem scopes_sorted (depth : ℕ → α) (marked : ℕ → Bool) (i : ℕ) :
    (scopes depth marked i).Pairwise fun j k => depth k < depth j := by
  induction i with
  | zero => exact List.Pairwise.nil
  | succ i ih =>
    have hdrop := ih.sublist (List.dropWhile_sublist fun j => decide (depth i ≤ depth j))
    rw [scopes]
    split
    · exact List.Pairwise.cons (fun k hk => ((mem_dropWhile_iff ih).mp hk).2) hdrop
    · exact hdrop

theorem mem_scopes : j ∈ scopes depth marked i ↔
    j < i ∧ marked j = true ∧ ∀ k, j < k → k < i → depth j < depth k := by
  induction i with
  | zero => simp [scopes]
  | succ i ih =>
    have hkept := mem_dropWhile_iff (i := i) (k := j) (scopes_sorted depth marked i)
    rw [ih] at hkept
    have hold : j ∈ (scopes depth marked i).dropWhile (fun j => decide (depth i ≤ depth j)) ↔
        j < i ∧ marked j = true ∧ ∀ k, j < k → k < i + 1 → depth j < depth k := by
      rw [hkept]
      constructor
      · rintro ⟨⟨hj, hm, h⟩, hlast⟩
        refine ⟨hj, hm, fun k hjk hki => ?_⟩
        rcases Nat.lt_succ_iff_lt_or_eq.mp hki with hki | rfl
        · exact h k hjk hki
        · exact hlast
      · rintro ⟨hj, hm, h⟩
        exact ⟨⟨hj, hm, fun k hjk hki => h k hjk (by omega)⟩, h i hj (by omega)⟩
    rw [scopes]
    split
    · rename_i hmark
      rw [List.mem_cons, hold]
      constructor
      · rintro (rfl | ⟨hj, h⟩)
        · exact ⟨by omega, hmark, fun k hjk hki => by omega⟩
        · exact ⟨by omega, h⟩
      · rintro ⟨hj, h⟩
        rcases Nat.lt_succ_iff_lt_or_eq.mp hj with hj | rfl
        · exact Or.inr ⟨hj, h⟩
        · exact Or.inl rfl
    · rename_i hmark
      rw [hold]
      refine ⟨fun h => ⟨by omega, h.2⟩, fun h => ⟨?_, h.2⟩⟩
      rcases Nat.lt_succ_iff_lt_or_eq.mp h.1 with hj | rfl
      · exact hj
      · exact absurd h.2.1 hmark

theorem scopes_dropWhile_ne_nil :
    (scopes depth marked i).dropWhile (fun j => decide (depth i ≤ depth j)) ≠ [] ↔
      ∃ j, marked j = true ∧ Under depth j i := by
  rw [ne_eq, List.eq_nil_iff_forall_not_mem, not_forall_not]
  refine exists_congr fun j => ?_
  rw [mem_dropWhile_iff (scopes_sorted depth marked i), mem_scopes]
  constructor
  · rintro ⟨⟨hj, hm, h⟩, hlast⟩
    refine ⟨hm, hj, fun k hjk hki => ?_⟩
    rcases hki.lt_or_eq with hki | rfl
    · exact h k hjk hki
    · exact hlast
  · rintro ⟨hm, hj, h⟩
    exact ⟨⟨hj, hm, fun k hjk hki => h k hjk (by omega)⟩, h i hj le_rfl⟩

end IndentTree
