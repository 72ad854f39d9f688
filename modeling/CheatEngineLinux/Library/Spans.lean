import CheatEngineLinux.Library.BinarySearch

/-!
# Merged spans

Closed spans of numbers are sorted, merged where they meet, and then searched for the span a
number lies in.

* `mergeSpan_apart`, `mergeSpan_covers` — **PROVED**: one more span keeps the merged spans
  apart and adds its own numbers;
* `contains_iff` — **PROVED**: the search in spans that lie apart;
* `contains_merged` — **PROVED**: it finds the numbers of the spans that were merged.
-/

namespace Spans

/-- The numbers from `first` to `last`. -/
structure Span where
  first : ℕ
  last : ℕ
  deriving Repr, DecidableEq

def Span.Holds (s : Span) (v : ℕ) : Prop := s.first ≤ v ∧ v ≤ s.last

/-- Adds a span to the merged ones, of which the last comes first; `top` is the largest number. -/
def mergeSpan (top : ℕ) : List Span → Span → List Span
  | [], s => [s]
  | back :: rest, s =>
    if back.last = top || s.first ≤ back.last + 1 then
      { back with last := max back.last s.last } :: rest
    else s :: back :: rest

def merged (top : ℕ) (spans : List Span) : List Span :=
  ((BinarySearch.sortBy Span.first spans).foldl (mergeSpan top) []).reverse

/-- A range check and a binary search. -/
def contains (spans : List Span) (v : ℕ) : Bool :=
  match spans.head?, spans.getLast? with
  | some front, some back =>
    if v < front.first || v > back.last then false
    else
      match BinarySearch.upperBound Span.first spans v with
      | 0 => false
      | i + 1 => (spans[i]?).any fun s => v ≤ s.last
  | _, _ => false

/-! ### Merging -/

/-- No merged span is empty, and each ends before the one that was added after it. -/
structure Apart (merged : List Span) : Prop where
  proper : ∀ s ∈ merged, s.first ≤ s.last
  apart : merged.Pairwise fun later earlier => earlier.last < later.first

section Merge

variable {top : ℕ} {merged : List Span} {s : Span}

theorem mergeSpan_apart (h : Apart merged) (hs : s.first ≤ s.last)
    (hle : ∀ b ∈ merged, b.first ≤ s.first) : Apart (mergeSpan top merged s) := by
  cases merged with
  | nil =>
    refine ⟨fun x hx => ?_, List.pairwise_singleton _ _⟩
    rw [List.mem_singleton.mp hx]
    exact hs
  | cons back rest =>
    have hback := h.proper back List.mem_cons_self
    obtain ⟨hbehind, hrest⟩ := List.pairwise_cons.mp h.apart
    rw [mergeSpan]
    split
    · refine ⟨?_, List.pairwise_cons.mpr ⟨hbehind, hrest⟩⟩
      intro x hx
      rcases List.mem_cons.mp hx with rfl | hx
      · exact le_trans hback (le_max_left _ _)
      · exact h.proper x (List.mem_cons_of_mem _ hx)
    · rename_i hgap
      simp only [Bool.or_eq_true, decide_eq_true_eq, not_or, not_le] at hgap
      refine ⟨?_, List.pairwise_cons.mpr ⟨?_, h.apart⟩⟩
      · intro x hx
        rcases List.mem_cons.mp hx with rfl | hx
        · exact hs
        · exact h.proper x hx
      · intro x hx
        rcases List.mem_cons.mp hx with rfl | hx
        · omega
        · have := hbehind x hx
          omega

theorem mergeSpan_first_le (hle : ∀ b ∈ merged, b.first ≤ s.first) :
    ∀ b ∈ mergeSpan top merged s, b.first ≤ s.first := by
  intro b hb
  cases merged with
  | nil => rw [List.mem_singleton.mp hb]
  | cons back rest =>
    rw [mergeSpan] at hb
    split at hb
    · rcases List.mem_cons.mp hb with rfl | hb
      · exact hle back List.mem_cons_self
      · exact hle b (List.mem_cons_of_mem _ hb)
    · rcases List.mem_cons.mp hb with rfl | hb
      · exact le_rfl
      · exact hle b hb

theorem mergeSpan_covers (htop : s.last ≤ top)
    (hle : ∀ b ∈ merged, b.first ≤ s.first) (v : ℕ) :
    (∃ b ∈ mergeSpan top merged s, b.Holds v) ↔ (∃ b ∈ merged, b.Holds v) ∨ s.Holds v := by
  cases merged with
  | nil => simp [mergeSpan]
  | cons back rest =>
    have hfirst := hle back List.mem_cons_self
    rw [mergeSpan]
    split
    · rename_i hmeet
      simp only [Bool.or_eq_true, decide_eq_true_eq] at hmeet
      have hjoin : ({ back with last := max back.last s.last } : Span).Holds v ↔
          back.Holds v ∨ s.Holds v := by
        simp only [Span.Holds]
        omega
      simp only [List.mem_cons, exists_eq_or_imp, hjoin]
      exact or_right_comm
    · simp only [List.mem_cons, exists_eq_or_imp]
      exact or_comm

theorem foldl_mergeSpan (h : Apart merged) {spans : List Span}
    (hproper : ∀ s ∈ spans, s.first ≤ s.last ∧ s.last ≤ top)
    (hsorted : spans.Pairwise fun a b => a.first ≤ b.first)
    (hle : ∀ b ∈ merged, ∀ s ∈ spans, b.first ≤ s.first) :
    Apart (spans.foldl (mergeSpan top) merged) ∧
      ∀ v, (∃ b ∈ spans.foldl (mergeSpan top) merged, b.Holds v) ↔
        (∃ b ∈ merged, b.Holds v) ∨ ∃ s ∈ spans, s.Holds v := by
  induction spans generalizing merged with
  | nil => exact ⟨h, fun v => by simp⟩
  | cons s rest ih =>
    obtain ⟨hs, htop⟩ := hproper s List.mem_cons_self
    obtain ⟨hbefore, hrest⟩ := List.pairwise_cons.mp hsorted
    have hles : ∀ b ∈ merged, b.first ≤ s.first := fun b hb => hle b hb s List.mem_cons_self
    obtain ⟨hapart, hcover⟩ := ih (mergeSpan_apart h hs hles)
      (fun x hx => hproper x (List.mem_cons_of_mem _ hx)) hrest
      (fun b hb x hx => le_trans (@mergeSpan_first_le top merged s hles b hb) (hbefore x hx))
    refine ⟨hapart, fun v => ?_⟩
    rw [List.foldl_cons, hcover v, mergeSpan_covers htop hles]
    simp only [List.mem_cons, exists_eq_or_imp]
    exact or_assoc

end Merge

/-! ### Searching -/

section Search

variable {spans : List Span}

theorem last_le_getLast (hproper : ∀ s ∈ spans, s.first ≤ s.last)
    (hapart : spans.Pairwise fun a b => a.last < b.first) {back s : Span}
    (hback : spans.getLast? = some back) (hs : s ∈ spans) : s.last ≤ back.last := by
  obtain ⟨init, rfl⟩ := List.getLast?_eq_some_iff.mp hback
  rcases List.mem_append.mp hs with hs | hs
  · have hlt := (List.pairwise_append.mp hapart).2.2 s hs back (List.mem_singleton_self _)
    have := hproper back (List.mem_append_right _ (List.mem_singleton_self _))
    omega
  · rw [List.mem_singleton.mp hs]

theorem contains_iff (hproper : ∀ s ∈ spans, s.first ≤ s.last)
    (hapart : spans.Pairwise fun a b => a.last < b.first) (v : ℕ) :
    contains spans v = true ↔ ∃ s ∈ spans, s.Holds v := by
  have hsorted : spans.Pairwise fun a b => a.first ≤ b.first :=
    hapart.imp_of_mem fun ha _ hlt => le_trans (hproper _ ha) (le_of_lt hlt)
  cases hspans : spans with
  | nil => simp [contains]
  | cons front rest =>
    rw [← hspans]
    obtain ⟨back, hback⟩ : ∃ back, spans.getLast? = some back := by
      rw [hspans]
      exact ⟨_, List.getLast?_eq_some_getLast (List.cons_ne_nil _ _)⟩
    have hhead : spans.head? = some front := by rw [hspans, List.head?_cons]
    rw [contains, hhead, hback]
    dsimp only
    constructor
    · intro h
      split at h
      · cases h
      · split at h
        · cases h
        · rename_i i hi
          have hlt : i < spans.length := by
            have := BinarySearch.upperBound_le hsorted v
            omega
          have hfirst := (BinarySearch.lt_upperBound_iff hsorted v i hlt).mp (by omega)
          rw [List.getElem?_eq_getElem hlt, Option.any_some, decide_eq_true_eq] at h
          exact ⟨spans[i], List.getElem_mem hlt, hfirst, h⟩
    · rintro ⟨s, hs, hfirst, hlast⟩
      have hfront : front.first ≤ s.first := by
        rw [hspans] at hs hsorted
        rcases List.mem_cons.mp hs with rfl | hs
        · exact le_rfl
        · exact (List.pairwise_cons.mp hsorted).1 s hs
      have hend := last_le_getLast hproper hapart hback hs
      rw [if_neg (by simp; omega)]
      -- the number's span is the last one that starts at or below it
      obtain ⟨j, hj, rfl⟩ := List.getElem_of_mem hs
      have hbound := (BinarySearch.lt_upperBound_iff hsorted v j hj).mpr hfirst
      have hle := BinarySearch.upperBound_le hsorted v
      split
      · omega
      · rename_i i hi
        have hilt : i < spans.length := by omega
        have hij : i = j := by
          rcases Nat.lt_or_ge j i with hji | hji
          · have hgap := List.pairwise_iff_getElem.mp hapart j i hj hilt hji
            have := (BinarySearch.lt_upperBound_iff hsorted v i hilt).mp (by omega)
            omega
          · omega
        subst hij
        rw [List.getElem?_eq_getElem hj, Option.any_some, decide_eq_true_eq]
        exact hlast

theorem contains_merged {top : ℕ} (hproper : ∀ s ∈ spans, s.first ≤ s.last ∧ s.last ≤ top) (v : ℕ) :
    contains (merged top spans) v = true ↔ ∃ s ∈ spans, s.Holds v := by
  have hperm := BinarySearch.sortBy_perm Span.first spans
  obtain ⟨hapart, hcover⟩ := @foldl_mergeSpan top [] ⟨by simp, List.Pairwise.nil⟩ _
    (fun s hs => hproper s (hperm.mem_iff.mp hs)) (BinarySearch.sortBy_sorted Span.first spans)
    (by simp)
  rw [merged, contains_iff (fun s hs => hapart.proper s (List.mem_reverse.mp hs))
    (List.pairwise_reverse.mpr hapart.apart)]
  simp only [List.mem_reverse, hcover, List.not_mem_nil, false_and, exists_false, false_or,
    hperm.mem_iff]

end Search

end Spans
