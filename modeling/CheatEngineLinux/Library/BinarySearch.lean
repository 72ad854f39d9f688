import Mathlib.Data.List.Sort

/-!
# Binary search over a partitioned index range

The standard library's `lower_bound` and `upper_bound` are one algorithm: halve the
remaining length and keep the half in which the test still flips.  This file states that
algorithm over an arbitrary test on indices and proves what it finds, with no reference to
any particular container:

* `partitionPoint` — the halving loop on a test `p`, started at `first` with `len`
  candidates;
* `partitionPoint_spec` — **PROVED**: when `p` is downward closed on the range, the loop
  stops at the index that separates the indices passing the test from those failing it;
* `sortBy` — a sort by a key, with what every comparison sort guarantees;
* `lowerBound` / `upperBound` — the two standard searches in a list, by a key, with the
  membership form of their results (`lt_lowerBound_iff`, `lt_upperBound_iff`).

Everything here is proved for lists over an arbitrary type and keys in a linear order.
-/

namespace BinarySearch

/-- The halving loop.  `fuel` is the number of candidates left at the start, which is more
than the loop needs since every round at least halves `len`. -/
def partitionPoint (p : ℕ → Bool) : (fuel first len : ℕ) → ℕ
  | 0, first, _ => first
  | fuel + 1, first, len =>
    if len = 0 then first
    else
      let half := len / 2
      if p (first + half) then partitionPoint p fuel (first + half + 1) (len - half - 1)
      else partitionPoint p fuel first half

/-- Indices that pass the test come before those that fail it. -/
def Partitioned (p : ℕ → Bool) (n : ℕ) : Prop :=
  ∀ i j, i ≤ j → j < n → p j = true → p i = true

theorem partitionPoint_spec (p : ℕ → Bool) (n : ℕ) (hp : Partitioned p n) :
    ∀ fuel first len, len ≤ fuel → first + len ≤ n →
      (∀ i < first, p i = true) → (∀ i, first + len ≤ i → i < n → p i = false) →
      partitionPoint p fuel first len ≤ n ∧
        ∀ i < n, i < partitionPoint p fuel first len ↔ p i = true := by
  intro fuel
  induction fuel with
  | zero =>
    intro first len hf hn hlo hhi
    have hlen : len = 0 := by omega
    subst hlen
    refine ⟨by simpa [partitionPoint] using hn, fun i hi => ?_⟩
    simp only [partitionPoint]
    constructor
    · exact hlo i
    · intro h
      by_contra hge
      rw [hhi i (by omega) hi] at h
      exact Bool.noConfusion h
  | succ fuel ih =>
    intro first len hf hn hlo hhi
    by_cases hlen : len = 0
    · subst hlen
      simp only [partitionPoint, if_true]
      refine ⟨by omega, fun i hi => ⟨hlo i, fun h => ?_⟩⟩
      by_contra hge
      rw [hhi i (by omega) hi] at h
      exact Bool.noConfusion h
    · have hhalf : len / 2 < len := Nat.div_lt_self (by omega) (by omega)
      simp only [partitionPoint, hlen, if_false]
      by_cases hmid : p (first + len / 2) = true
      · rw [if_pos hmid]
        apply ih
        · omega
        · omega
        · intro i hi
          exact hp i (first + len / 2) (by omega) (by omega) hmid
        · intro i hi hin
          exact hhi i (by omega) hin
      · rw [if_neg hmid]
        apply ih
        · omega
        · omega
        · exact hlo
        · intro i hi hin
          -- a later index passing the test would force the middle one to pass
          by_contra h
          exact hmid (hp (first + len / 2) i (by omega) hin (by simpa using h))

variable {α κ : Type*}

/-- The first index whose key is not below `v` (`std::lower_bound`). -/
def lowerBound [LT κ] [DecidableLT κ] (key : α → κ) (l : List α) (v : κ) : ℕ :=
  partitionPoint (fun i => (l[i]?).any fun a => decide (key a < v)) l.length 0 l.length

/-- The first index whose key is above `v` (`std::upper_bound`). -/
def upperBound [LT κ] [DecidableLT κ] (key : α → κ) (l : List α) (v : κ) : ℕ :=
  partitionPoint (fun i => (l[i]?).any fun a => !decide (v < key a)) l.length 0 l.length

def sortBy [LE κ] [DecidableLE κ] (key : α → κ) (l : List α) : List α :=
  l.mergeSort fun a b => decide (key a ≤ key b)

theorem sortBy_perm [LE κ] [DecidableLE κ] (key : α → κ) (l : List α) :
    (sortBy key l).Perm l :=
  List.mergeSort_perm _ _

theorem sortBy_sorted [LinearOrder κ] (key : α → κ) (l : List α) :
    (sortBy key l).Pairwise fun a b => key a ≤ key b := by
  have h := @List.pairwise_mergeSort α (fun a b => decide (key a ≤ key b))
    (fun a b c hab hbc => by
      rw [decide_eq_true_eq] at hab hbc ⊢
      exact le_trans hab hbc)
    (fun a b => by
      simp only [Bool.or_eq_true, decide_eq_true_eq]
      exact le_total _ _) l
  exact h.imp fun hab => of_decide_eq_true hab

section Sorted

variable [LinearOrder κ] {key : α → κ} {l : List α}

theorem key_mono (hs : l.Pairwise fun a b => key a ≤ key b) {i j : ℕ} (hij : i ≤ j)
    (hi : i < l.length) (hj : j < l.length) : key l[i] ≤ key l[j] := by
  rcases Nat.lt_or_eq_of_le hij with h | h
  · exact List.pairwise_iff_getElem.mp hs i j hi hj h
  · subst h; exact le_rfl

private theorem partitioned_any (hs : l.Pairwise fun a b => key a ≤ key b) (q : κ → Bool)
    (hq : ∀ a b, a ≤ b → q b = true → q a = true) :
    Partitioned (fun i => (l[i]?).any fun a => q (key a)) l.length := by
  intro i j hij hj h
  have hi : i < l.length := lt_of_le_of_lt hij hj
  simp only [List.getElem?_eq_getElem hj, List.getElem?_eq_getElem hi, Option.any_some] at h ⊢
  exact hq _ _ (key_mono hs hij hi hj) h

private theorem search_spec (hs : l.Pairwise fun a b => key a ≤ key b) (q : κ → Bool)
    (hq : ∀ a b, a ≤ b → q b = true → q a = true) :
    partitionPoint (fun i => (l[i]?).any fun a => q (key a)) l.length 0 l.length ≤ l.length ∧
      ∀ i (h : i < l.length),
        i < partitionPoint (fun i => (l[i]?).any fun a => q (key a)) l.length 0 l.length ↔
          q (key l[i]) = true := by
  have h := partitionPoint_spec _ _ (partitioned_any hs q hq) l.length 0 l.length le_rfl
    (by omega) (fun i hi => absurd hi (Nat.not_lt_zero i)) (fun i h1 h2 => by omega)
  refine ⟨h.1, fun i hi => ?_⟩
  rw [h.2 i hi]
  simp [List.getElem?_eq_getElem hi]

theorem lowerBound_le (hs : l.Pairwise fun a b => key a ≤ key b) (v : κ) :
    lowerBound key l v ≤ l.length :=
  (search_spec hs (fun k => decide (k < v))
    (fun a b hab hb => by simp only [decide_eq_true_eq] at hb ⊢; exact lt_of_le_of_lt hab hb)).1

theorem lt_lowerBound_iff (hs : l.Pairwise fun a b => key a ≤ key b) (v : κ) (i : ℕ)
    (hi : i < l.length) : i < lowerBound key l v ↔ key l[i] < v := by
  have h := (search_spec hs (fun k => decide (k < v))
    (fun a b hab hb => by simp only [decide_eq_true_eq] at hb ⊢; exact lt_of_le_of_lt hab hb)).2 i hi
  rw [decide_eq_true_eq] at h
  exact h

theorem upperBound_le (hs : l.Pairwise fun a b => key a ≤ key b) (v : κ) :
    upperBound key l v ≤ l.length :=
  (search_spec hs (fun k => !decide (v < k))
    (fun a b hab hb => by
      simp only [Bool.not_eq_true', decide_eq_false_iff_not, not_lt] at hb ⊢
      exact le_trans hab hb)).1

theorem lt_upperBound_iff (hs : l.Pairwise fun a b => key a ≤ key b) (v : κ) (i : ℕ)
    (hi : i < l.length) : i < upperBound key l v ↔ key l[i] ≤ v := by
  have h := (search_spec hs (fun k => !decide (v < k))
    (fun a b hab hb => by
      simp only [Bool.not_eq_true', decide_eq_false_iff_not, not_lt] at hb ⊢
      exact le_trans hab hb)).2 i hi
  rw [Bool.not_eq_true', decide_eq_false_iff_not, not_lt] at h
  exact h

end Sorted

end BinarySearch
