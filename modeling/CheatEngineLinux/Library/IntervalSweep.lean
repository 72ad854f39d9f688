import Mathlib.Data.List.Basic
import Mathlib.Data.List.Pairwise
import Mathlib.Algebra.Order.Group.Nat

/-!
# Sweeping two lists of intervals

Two lists of disjoint half-open intervals, each in ascending order, are walked together: of the
two fronts the one that ends first is passed.

* `sweep` — the pairs of fronts the walk meets;
* `mem_sweep` — **PROVED**: intervals that share a point are met;
* `sweep_ascending` — **PROVED**: what the pairs share comes in ascending order, without overlap;
* `stretch_in_one` — **PROVED**: where no two intervals touch, a stretch of covered points lies in
  one of them.
-/

namespace IntervalSweep

variable {α β : Type*} (loA hiA : α → ℕ) (loB hiB : β → ℕ)

/-- The pairs of fronts. -/
def sweep : List α → List β → List (α × β)
  | a :: as, b :: bs =>
    if hiA a ≤ hiB b then (a, b) :: sweep as (b :: bs) else (a, b) :: sweep (a :: as) bs
  | _, _ => []
termination_by as bs => as.length + bs.length

def Ascending {γ : Type*} (lo hi : γ → ℕ) (l : List γ) : Prop := l.Pairwise fun a b => hi a ≤ lo b

/-- A point of both intervals of a pair. -/
def Shared (p : α × β) (x : ℕ) : Prop :=
  (loA p.1 ≤ x ∧ x < hiA p.1) ∧ loB p.2 ≤ x ∧ x < hiB p.2

variable {loA hiA loB hiB} {as : List α} {bs : List β} {a : α} {b : β}

theorem sweep_mem (h : (a, b) ∈ sweep hiA hiB as bs) : a ∈ as ∧ b ∈ bs := by
  fun_induction sweep hiA hiB as bs with
  | case1 a' as b' bs hle ih =>
    rcases List.mem_cons.mp h with heq | h
    · cases heq
      exact ⟨List.mem_cons_self, List.mem_cons_self⟩
    · exact ⟨List.mem_cons_of_mem _ (ih h).1, (ih h).2⟩
  | case2 a' as b' bs hle ih =>
    rcases List.mem_cons.mp h with heq | h
    · cases heq
      exact ⟨List.mem_cons_self, List.mem_cons_self⟩
    · exact ⟨(ih h).1, List.mem_cons_of_mem _ (ih h).2⟩
  | case3 => cases h

/-- Intervals that share a point are met. -/
theorem mem_sweep (has : Ascending loA hiA as) (hbs : Ascending loB hiB bs) (ha : a ∈ as)
    (hb : b ∈ bs) {x : ℕ} (hx : Shared loA hiA loB hiB (a, b) x) :
    (a, b) ∈ sweep hiA hiB as bs := by
  obtain ⟨⟨hloA, hhiA⟩, hloB, hhiB⟩ := hx
  dsimp only at hloA hhiA hloB hhiB
  fun_induction sweep hiA hiB as bs with
  | case1 a' as b' bs hle ih =>
    rcases List.mem_cons.mp ha with rfl | ha
    · rcases List.mem_cons.mp hb with rfl | hb
      · exact List.mem_cons_self
      · -- the other interval starts behind this one
        have := List.rel_of_pairwise_cons hbs hb
        omega
    · exact List.mem_cons_of_mem _ (ih has.of_cons hbs ha hb)
  | case2 a' as b' bs hle ih =>
    rcases List.mem_cons.mp hb with rfl | hb
    · rcases List.mem_cons.mp ha with rfl | ha
      · exact List.mem_cons_self
      · have := List.rel_of_pairwise_cons has ha
        omega
    · exact List.mem_cons_of_mem _ (ih has hbs.of_cons ha hb)
  | case3 as bs hnone =>
    cases as with
    | nil => cases ha
    | cons a' as =>
      cases bs with
      | nil => cases hb
      | cons b' bs => exact (hnone a' as b' bs rfl rfl).elim

theorem sweep_ascending (has : Ascending loA hiA as) (hbs : Ascending loB hiB bs) :
    (sweep hiA hiB as bs).Pairwise fun p q =>
      ∀ x, Shared loA hiA loB hiB p x → ∀ y, Shared loA hiA loB hiB q y → x < y := by
  fun_induction sweep hiA hiB as bs with
  | case1 a' as b' bs hle ih =>
    refine List.Pairwise.cons (fun q hq x hx y hy => ?_) (ih has.of_cons hbs)
    have := List.rel_of_pairwise_cons has (sweep_mem hq).1
    exact (hx.1.2.trans_le this).trans_le hy.1.1
  | case2 a' as b' bs hle ih =>
    refine List.Pairwise.cons (fun q hq x hx y hy => ?_) (ih has hbs.of_cons)
    have := List.rel_of_pairwise_cons hbs (sweep_mem hq).2
    exact (hx.2.2.trans_le this).trans_le hy.2.1
  | case3 => exact List.Pairwise.nil

theorem flatMap_sweep_ascending {γ : Type*} (has : Ascending loA hiA as)
    (hbs : Ascending loB hiB bs) (cut : α × β → List γ) (key : γ → ℕ)
    (hcut : ∀ p ∈ sweep hiA hiB as bs, (cut p).Pairwise fun c d => key c < key d)
    (hshared : ∀ p ∈ sweep hiA hiB as bs, ∀ c ∈ cut p, Shared loA hiA loB hiB p (key c)) :
    ((sweep hiA hiB as bs).flatMap cut).Pairwise fun c d => key c < key d := by
  rw [List.pairwise_flatMap]
  refine ⟨hcut, (sweep_ascending has hbs).imp_of_mem fun hp hq h c hc d hd => ?_⟩
  exact h _ (hshared _ hp c hc) _ (hshared _ hq d hd)

/-! ### Intervals that do not touch -/

/-- Intervals in ascending order with a gap between any two. -/
def Separated {γ : Type*} (lo hi : γ → ℕ) (l : List γ) : Prop := l.Pairwise fun a b => hi a < lo b

theorem Separated.ascending (h : Separated loA hiA as) : Ascending loA hiA as := h.imp Nat.le_of_lt

theorem stretch_in_one (h : Separated loA hiA as) {x w : ℕ} (hw : 0 < w)
    (hcover : ∀ k, x ≤ k → k < x + w → ∃ r ∈ as, loA r ≤ k ∧ k < hiA r) :
    ∃ r ∈ as, loA r ≤ x ∧ x + w ≤ hiA r := by
  obtain ⟨r, hr, hlo, hhi⟩ := hcover x (Nat.le_refl x) (by omega)
  refine ⟨r, hr, hlo, ?_⟩
  by_contra hshort
  -- the interval that covers the end of this one would touch it
  obtain ⟨s, hs, hslo, hshi⟩ := hcover (hiA r) (by omega) (by omega)
  have hne : r ≠ s := by
    rintro rfl
    omega
  have hsymm : Std.Symm fun a b => hiA a < loA b ∨ hiA b < loA a := ⟨fun _ _ => Or.symm⟩
  have hgap : as.Pairwise fun a b => hiA a < loA b ∨ hiA b < loA a := h.imp Or.inl
  rcases hgap.forall hr hs hne with hgap | hgap <;> omega

end IntervalSweep
