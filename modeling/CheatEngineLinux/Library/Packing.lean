import Mathlib.Algebra.BigOperators.Group.List.Basic
import Mathlib.Data.List.Pairwise
import Mathlib.Tactic.Ring

/-!
# Items laid one after the other

A list of items, each with a width, laid from an offset without gaps.

* `laid`, `extent`: the items with their offsets, and the width of all of them.
* **PROVED `covered_iff`**: the items cover just the positions below the extent.
* **PROVED `laid_ascending`**: each item ends before the next one.
-/

namespace Packing

variable {α : Type*} (width : α → ℕ)

def laid : ℕ → List α → List (ℕ × α)
  | _, [] => []
  | o, x :: xs => (o, x) :: laid (o + width x) xs

def extent (xs : List α) : ℕ := (xs.map width).sum

variable {width} {o x : ℕ} {xs ys : List α}

@[simp] theorem extent_nil : extent width ([] : List α) = 0 := rfl

@[simp] theorem extent_cons (x : α) : extent width (x :: xs) = width x + extent width xs := by
  simp [extent]

@[simp] theorem extent_append : extent width (xs ++ ys) = extent width xs + extent width ys := by
  simp [extent]

theorem laid_append :
    laid width o (xs ++ ys) = laid width o xs ++ laid width (o + extent width xs) ys := by
  induction xs generalizing o with
  | nil => rfl
  | cons x xs ih =>
    rw [List.cons_append, laid, laid, ih, extent_cons, Nat.add_assoc]
    rfl

@[simp] theorem map_snd_laid : (laid width o xs).map Prod.snd = xs := by
  induction xs generalizing o with
  | nil => rfl
  | cons x xs ih => rw [laid, List.map_cons, ih]

theorem covered_iff :
    (∃ p ∈ laid width o xs, p.1 ≤ x ∧ x < p.1 + width p.2) ↔ o ≤ x ∧ x < o + extent width xs := by
  induction xs generalizing o with
  | nil =>
    simp only [laid, List.not_mem_nil, false_and, exists_false, extent_nil, false_iff]
    omega
  | cons y ys ih =>
    rw [laid, List.exists_mem_cons_iff, ih, extent_cons]
    dsimp only
    omega

theorem le_of_mem_laid {p : ℕ × α} (hp : p ∈ laid width o xs) : o ≤ p.1 := by
  induction xs generalizing o with
  | nil => cases hp
  | cons y ys ih =>
    rcases List.mem_cons.mp hp with rfl | hp
    · exact le_rfl
    · have := ih hp
      omega

theorem laid_ascending :
    (laid width o xs).Pairwise fun p q => p.1 + width p.2 ≤ q.1 := by
  induction xs generalizing o with
  | nil => exact List.Pairwise.nil
  | cons y ys ih => exact List.Pairwise.cons (fun q hq => le_of_mem_laid hq) ih

/-- No position is in two items. -/
theorem eq_of_covered {p q : ℕ × α} (hp : p ∈ laid width o xs) (hq : q ∈ laid width o xs)
    (hxp : p.1 ≤ x ∧ x < p.1 + width p.2) (hxq : q.1 ≤ x ∧ x < q.1 + width q.2) : p = q := by
  have hsymm : Std.Symm fun p q : ℕ × α => p.1 + width p.2 ≤ q.1 ∨ q.1 + width q.2 ≤ p.1 :=
    ⟨fun _ _ => Or.symm⟩
  have hapart : (laid width o xs).Pairwise fun p q =>
      p.1 + width p.2 ≤ q.1 ∨ q.1 + width q.2 ≤ p.1 := laid_ascending.imp Or.inl
  by_contra hne
  have := hapart.forall hp hq hne
  omega

end Packing
