import Mathlib.Data.List.Basic
import Mathlib.Data.List.TakeWhile

/-!
# Decoding a part of the input at a time

A decoder takes one item after the other from a list, each from a window of the symbols before it.
Where only a part of the list is there, the items that start a window before its end are the items
of the whole list, and decoding goes on at the first of the others.

* `Decoder`: one item, and how many symbols it takes.
* `decode`: the items of a list, with their positions.
* `resume`: where the decoding of a part goes on.

* **PROVED `decode_take`**: the items of a part that has a window left, and where to go on.
-/

namespace ChunkedDecode

variable {α β : Type*}

/-- What one item is and how many symbols it takes depends on a window of them. -/
structure Decoder (α β : Type*) where
  window : ℕ
  step : ℕ → List α → β × ℕ
  step_pos : ∀ p xs, xs ≠ [] → 0 < (step p xs).2
  step_le : ∀ p xs, (step p xs).2 ≤ xs.length
  step_take : ∀ p xs, step p (xs.take window) = step p xs

variable {d : Decoder α β} {p m look : ℕ} {xs : List α}

/-- The items from a position on. -/
def decode (d : Decoder α β) (p : ℕ) (xs : List α) : List (ℕ × β) :=
  if _h : xs = [] then []
  else (p, (d.step p xs).1) :: decode d (p + (d.step p xs).2) (xs.drop (d.step p xs).2)
termination_by xs.length
decreasing_by
  have hpos := d.step_pos p xs ‹_›
  have hle := d.step_le p xs
  rw [List.length_drop]
  omega

@[simp] theorem decode_nil : decode d p [] = [] := by
  rw [decode]
  rfl

theorem decode_cons (h : xs ≠ []) :
    decode d p xs =
      (p, (d.step p xs).1) :: decode d (p + (d.step p xs).2) (xs.drop (d.step p xs).2) := by
  conv => lhs; rw [decode]
  rw [dif_neg h]

theorem step_le_window (p : ℕ) (xs : List α) : (d.step p xs).2 ≤ d.window := by
  have h := d.step_le p (xs.take d.window)
  rw [d.step_take, List.length_take] at h
  omega

theorem step_take_of_window_le (h : d.window ≤ m) : d.step p (xs.take m) = d.step p xs := by
  rw [← d.step_take p (xs.take m), List.take_take, Nat.min_eq_left h, d.step_take]

theorem le_of_mem_decode {item : ℕ × β} (h : item ∈ decode d p xs) :
    p ≤ item.1 ∧ item.1 < p + xs.length := by
  induction hn : xs.length using Nat.strong_induction_on generalizing p xs with
  | _ n ih =>
    by_cases hxs : xs = []
    · simp [hxs] at h
    have hpos := d.step_pos p xs hxs
    have hle := d.step_le p xs
    have hlen : (xs.drop (d.step p xs).2).length = n - (d.step p xs).2 := by
      rw [List.length_drop, hn]
    rw [decode_cons hxs] at h
    rcases List.mem_cons.1 h with rfl | h
    · exact ⟨Nat.le_refl _, by dsimp only; omega⟩
    · have hrest := ih (n - (d.step p xs).2) (by omega) h hlen
      omega

theorem decode_shift {d' : Decoder α β} {k : ℕ} (h : ∀ p xs, d'.step p xs = d.step (k + p) xs)
    (p : ℕ) (xs : List α) :
    decode d (k + p) xs = (decode d' p xs).map fun item => (k + item.1, item.2) := by
  induction hn : xs.length using Nat.strong_induction_on generalizing p xs with
  | _ n ih =>
    by_cases hxs : xs = []
    · simp [hxs]
    have hpos := d'.step_pos p xs hxs
    have hle := d'.step_le p xs
    rw [decode_cons hxs, decode_cons hxs, ← h, List.map_cons, Nat.add_assoc]
    congr 1
    refine ih _ ?_ _ _ rfl
    rw [List.length_drop]
    omega

/-- There is a window left after the start of the item. -/
def fits (look last : ℕ) (item : ℕ × β) : Bool := decide (item.1 + look ≤ last)

/-- Where the decoding of a part goes on: at the first item without a window left. -/
def resume (look last : ℕ) (items : List (ℕ × β)) : ℕ :=
  match items.dropWhile (fits look last) with
  | [] => last
  | item :: _ => item.1

theorem resume_cons_of_pos {last : ℕ} {item : ℕ × β} {items : List (ℕ × β)}
    (h : fits look last item = true) :
    resume look last (item :: items) = resume look last items := by
  rw [resume, List.dropWhile_cons_of_pos h, resume]

theorem resume_cons_of_neg {last : ℕ} {item : ℕ × β} {items : List (ℕ × β)}
    (h : ¬fits look last item = true) : resume look last (item :: items) = item.1 := by
  rw [resume, List.dropWhile_cons_of_neg h]

/-- The items of a part that have a window left are the next items of the list, and the others are
decoded again. -/
theorem decode_take (hlook : d.window ≤ look) (hm : m ≤ xs.length) :
    ∃ q, resume look (p + m) (decode d p (xs.take m)) = q ∧ p ≤ q ∧ q ≤ p + m ∧
      (0 < m → look ≤ m → p < q) ∧
      decode d p xs =
        (decode d p (xs.take m)).takeWhile (fits look (p + m)) ++ decode d q (xs.drop (q - p)) := by
  induction m using Nat.strong_induction_on generalizing p xs with
  | _ m ih =>
    by_cases h0 : m = 0
    · subst h0
      exact ⟨p, by simp [resume], by simp⟩
    have hxs : xs ≠ [] := by
      rintro rfl
      simp only [List.length_nil] at hm
      omega
    have htake : xs.take m ≠ [] := by
      rw [Ne, List.take_eq_nil_iff]
      rintro (h | h)
      · exact h0 h
      · exact hxs h
    rw [decode_cons htake]
    by_cases hfit : look ≤ m
    · -- the first item sees a whole window
      have hstep : d.step p (xs.take m) = d.step p xs :=
        step_take_of_window_le (Nat.le_trans hlook hfit)
      have hpos := d.step_pos p xs hxs
      have hwindow := @step_le_window α β d p xs
      have hin : fits look (p + m) (p, (d.step p (xs.take m)).1) = true :=
        decide_eq_true (by dsimp only; omega)
      rw [resume_cons_of_pos hin, List.takeWhile_cons_of_pos hin, hstep, decode_cons hxs,
        List.drop_take]
      generalize (d.step p xs).2 = n at hpos hwindow
      obtain ⟨q, hq, hle, hlast, -, hrest⟩ := @ih (m - n) (by omega) (p + n) (xs.drop n)
        (by rw [List.length_drop]; omega)
      rw [show p + n + (m - n) = p + m by omega] at hq hlast hrest
      refine ⟨q, hq, by omega, hlast, fun _ _ => by omega, ?_⟩
      rw [hrest, List.drop_drop, List.cons_append, show n + (q - (p + n)) = q - p by omega]
    · have hout : ¬fits look (p + m) (p, (d.step p (xs.take m)).1) = true := by
        rw [fits, decide_eq_true_iff]
        dsimp only
        omega
      rw [resume_cons_of_neg hout, List.takeWhile_cons_of_neg hout]
      refine ⟨p, rfl, Nat.le_refl p, Nat.le_add_right p m, fun _ h => absurd h hfit, ?_⟩
      rw [Nat.sub_self, List.drop_zero, List.nil_append]

end ChunkedDecode
