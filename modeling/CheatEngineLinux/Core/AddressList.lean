import CheatEngineLinux.Library.IndentTree
import Mathlib.Data.List.Perm.Basic
import Mathlib.Data.List.Nodup
import Mathlib.Data.List.Range
import Mathlib.Tactic.Ring

/-!
# The address list's rows

The address list (`core/address_list.hpp`) is a list of rows with indents; the rows under a
row are the deeper ones that follow it.

* `mem_descendantRange` — **PROVED**: `descendantRange` is the subtree of a row;
* `hiddenByCollapse_iff` — **PROVED**: the one pass of `hiddenByCollapse` hides the rows under a
  collapsed one;
* `moveRangePermutation_eq` — **PROVED**: a move puts the block, in order, between the other
  rows, in order;
* `mem_expandGroupDeletion` — **PROVED**: a deletion takes the selected rows and what is under
  them.
-/

namespace CheatEngine

open IndentTree

/-- `[begin, end)` of the rows nested under a row. -/
def descendantRange (indents : List ℤ) (row : ℕ) : ℕ × ℕ :=
  match indents[row]? with
  | none => (row + 1, row + 1)
  | some parent =>
    (row + 1, row + 1 + ((indents.drop (row + 1)).takeWhile fun d => decide (d > parent)).length)

/-- The loop of `hiddenByCollapse`, with the indents of the collapsed groups still in scope. -/
def hiddenLoop (collapsed : List Bool) : ℕ → List ℤ → List ℤ → List Bool
  | _, _, [] => []
  | i, activeCollapsedIndents, d :: rest =>
    let active := activeCollapsedIndents.dropWhile fun top => decide (top ≥ d)
    (!active.isEmpty) ::
      hiddenLoop collapsed (i + 1) (if collapsed.getD i false then d :: active else active) rest

/-- Whether each row is hidden because a group over it is collapsed. -/
def hiddenByCollapse (indents : List ℤ) (collapsed : List Bool) : List Bool :=
  hiddenLoop collapsed 0 [] indents

/-- `[start, start + len)` in order. -/
def indexRange (start len : ℤ) : List ℤ := (List.range len.toNat).map fun k : ℕ => start + (k : ℤ)

/-- The old index for each new position after `[start, start + len)` has moved before `dest`. -/
def moveRangePermutation (count start len dest : ℤ) : List ℤ :=
  if count ≤ 0 || len ≤ 0 || start < 0 || start > count || len > count - start || dest < 0
      || dest > count then
    indexRange 0 count
  else
    let rest := (indexRange 0 count).filter fun i => i < start || i ≥ start + len
    let insertPos := (rest.takeWhile fun r => decide (r < dest)).length
    rest.take insertPos ++ indexRange start len ++ rest.drop insertPos

def markRows (mark : List Bool) (range : ℕ × ℕ) : List Bool :=
  (List.range' range.1 (range.2 - range.1)).foldl (fun mark i => mark.set i true) mark

def expandGroupDeletion (indents : List ℤ) (selected : List ℕ) : List ℕ :=
  let mark := selected.foldl
    (fun mark r =>
      if r ≥ indents.length then mark
      else markRows (mark.set r true) (descendantRange indents r))
    (List.replicate indents.length false)
  (List.range mark.length).filter fun i => mark.getD i false

/-! ### Subtrees -/

def indentOf (indents : List ℤ) (row : ℕ) : ℤ := indents.getD row 0

theorem indentOf_eq {indents : List ℤ} {row : ℕ} {d : ℤ} (h : indents[row]? = some d) :
    indentOf indents row = d := by
  rw [indentOf, List.getD_eq_getElem?_getD, h]
  rfl

theorem lt_length_takeWhile {α : Type*} (p : α → Bool) (s : List α) (i : ℕ) :
    i < (s.takeWhile p).length ↔ i < s.length ∧ ∀ k ≤ i, ∀ x, s[k]? = some x → p x = true := by
  induction s generalizing i with
  | nil => simp
  | cons a s ih =>
    by_cases ha : p a = true
    · rw [List.takeWhile_cons_of_pos ha]
      cases i with
      | zero =>
        simp only [List.length_cons, Nat.zero_lt_succ, true_and, true_iff]
        intro k hk x hx
        rw [Nat.le_zero.mp hk] at hx
        cases hx
        exact ha
      | succ i =>
        rw [List.length_cons, List.length_cons, Nat.succ_lt_succ_iff, Nat.succ_lt_succ_iff, ih]
        refine and_congr_right fun _ => ⟨fun h k hk x hx => ?_, fun h k hk x hx => ?_⟩
        · cases k with
          | zero =>
            cases hx
            exact ha
          | succ k => exact h k (by omega) x hx
        · exact h (k + 1) (by omega) x hx
    · rw [List.takeWhile_cons_of_neg ha]
      simp only [List.length_nil, Nat.not_lt_zero, false_iff, not_and]
      intro _ h
      exact ha (h 0 (Nat.zero_le i) a rfl)

theorem mem_descendantRange {indents : List ℤ} {row i : ℕ} :
    (descendantRange indents row).1 ≤ i ∧ i < (descendantRange indents row).2 ↔
      i < indents.length ∧ Under (indentOf indents) row i := by
  rw [descendantRange]
  cases hrow : indents[row]? with
  | none =>
    have hlen := List.getElem?_eq_none_iff.mp hrow
    simp only [Under]
    constructor
    · intro h
      omega
    · intro h
      omega
  | some parent =>
    dsimp only
    constructor
    · rintro ⟨hle, hlt⟩
      have hfront : i - (row + 1) <
          ((indents.drop (row + 1)).takeWhile fun d => decide (d > parent)).length := by omega
      have h := (lt_length_takeWhile _ _ _).mp hfront
      rw [List.length_drop] at h
      refine ⟨by omega, by omega, fun k hjk hki => ?_⟩
      have hk : k < indents.length := by omega
      have := h.2 (k - (row + 1)) (by omega) (indents[k]) (by
        rw [List.getElem?_drop, show row + 1 + (k - (row + 1)) = k by omega,
          List.getElem?_eq_getElem hk])
      rw [indentOf_eq hrow, indentOf_eq (List.getElem?_eq_getElem hk)]
      exact of_decide_eq_true this
    · rintro ⟨hi, hlt, h⟩
      refine ⟨hlt, ?_⟩
      have : i - (row + 1) <
          ((indents.drop (row + 1)).takeWhile fun d => decide (d > parent)).length := by
        rw [lt_length_takeWhile, List.length_drop]
        refine ⟨by omega, fun k hk x hx => ?_⟩
        rw [List.getElem?_drop] at hx
        have := h (row + 1 + k) (by omega) (by omega)
        rw [indentOf_eq hrow, indentOf_eq hx] at this
        exact decide_eq_true this
      omega

/-! ### Collapsed groups -/

theorem hiddenLoop_eq (indents : List ℤ) (collapsed : List Bool) {n i : ℕ}
    (hn : i + n = indents.length) :
    hiddenLoop collapsed i
        ((scopes (indentOf indents) (fun k => collapsed.getD k false) i).map (indentOf indents))
        (indents.drop i) =
      (List.range' i n).map fun k =>
        !((scopes (indentOf indents) (fun k => collapsed.getD k false) k).dropWhile fun j =>
          decide (indentOf indents k ≤ indentOf indents j)).isEmpty := by
  induction n generalizing i with
  | zero => rw [List.drop_eq_nil_of_le (by omega), hiddenLoop, List.range'_zero, List.map_nil]
  | succ n ih =>
    have hi : i < indents.length := by omega
    have hd : indentOf indents i = indents[i] := indentOf_eq (List.getElem?_eq_getElem hi)
    have hscope :
        ((scopes (indentOf indents) (fun k => collapsed.getD k false) i).map
            (indentOf indents)).dropWhile (fun top => decide (top ≥ indents[i])) =
          ((scopes (indentOf indents) (fun k => collapsed.getD k false) i).dropWhile fun j =>
            decide (indentOf indents i ≤ indentOf indents j)).map (indentOf indents) := by
      rw [List.dropWhile_map, hd]
      rfl
    rw [List.drop_eq_getElem_cons hi, hiddenLoop, List.range'_succ, List.map_cons, hscope,
      List.isEmpty_map]
    congr 1
    rw [← ih (i := i + 1) (by omega), scopes]
    congr 1
    split
    · rw [List.map_cons, hd]
    · rfl

theorem hiddenByCollapse_length (indents : List ℤ) (collapsed : List Bool) :
    (hiddenByCollapse indents collapsed).length = indents.length := by
  have h := hiddenLoop_eq indents collapsed (n := indents.length) (i := 0) (by omega)
  rw [scopes, List.map_nil, List.drop_zero] at h
  rw [hiddenByCollapse, h, List.length_map, List.length_range']

theorem hiddenByCollapse_iff {indents : List ℤ} {collapsed : List Bool} {i : ℕ}
    (hi : i < indents.length) :
    (hiddenByCollapse indents collapsed).getD i false = true ↔
      ∃ j, collapsed.getD j false = true ∧ Under (indentOf indents) j i := by
  have h := hiddenLoop_eq indents collapsed (n := indents.length) (i := 0) (by omega)
  rw [scopes, List.map_nil, List.drop_zero] at h
  rw [hiddenByCollapse, h, List.getD_eq_getElem?_getD, List.getElem?_map,
    List.getElem?_range' (by omega), ← scopes_dropWhile_ne_nil]
  simp

/-! ### Moves -/

theorem mem_indexRange {start len i : ℤ} : i ∈ indexRange start len ↔ start ≤ i ∧ i < start + len := by
  simp only [indexRange, List.mem_map, List.mem_range]
  constructor
  · rintro ⟨k, hk, rfl⟩
    omega
  · rintro ⟨hlo, hhi⟩
    exact ⟨(i - start).toNat, by omega, by omega⟩

theorem indexRange_sorted (start len : ℤ) : (indexRange start len).Pairwise (· < ·) := by
  rw [indexRange, List.pairwise_map]
  exact List.pairwise_lt_range.imp fun h => by omega

/-- The rows outside the block, in order. -/
def otherRows (count start len : ℤ) : List ℤ :=
  (indexRange 0 count).filter fun i => i < start || i ≥ start + len

theorem split_sorted {s : List ℤ} (h : s.Pairwise (· < ·)) (bound : ℤ) :
    s.takeWhile (fun r => decide (r < bound)) = s.filter (· < bound) ∧
      s.dropWhile (fun r => decide (r < bound)) = s.filter (bound ≤ ·) := by
  induction s with
  | nil => exact ⟨rfl, rfl⟩
  | cons a s ih =>
    obtain ⟨htake, hdrop⟩ := ih h.of_cons
    by_cases ha : a < bound
    · rw [List.takeWhile_cons_of_pos (by simpa using ha), List.filter_cons_of_pos (by simpa using ha),
        List.dropWhile_cons_of_pos (by simpa using ha), List.filter_cons_of_neg (by simpa using ha),
        htake]
      exact ⟨rfl, hdrop⟩
    · have hall : ∀ b ∈ a :: s, bound ≤ b := by
        intro b hb
        rcases List.mem_cons.mp hb with rfl | hb
        · omega
        · have := List.rel_of_pairwise_cons h hb
          omega
      rw [List.takeWhile_cons_of_neg (by simpa using ha),
        List.dropWhile_cons_of_neg (by simpa using ha),
        List.filter_eq_nil_iff.mpr fun b hb => by simpa using hall b hb,
        List.filter_eq_self.mpr fun b hb => by simpa using hall b hb]
      exact ⟨rfl, rfl⟩

theorem filter_split_sorted {s : List ℤ} (h : s.Pairwise (· < ·)) (bound : ℤ) :
    s.filter (· < bound) ++ s.filter (bound ≤ ·) = s := by
  rw [← (split_sorted h bound).1, ← (split_sorted h bound).2, List.takeWhile_append_dropWhile]

theorem otherRows_sorted (count start len : ℤ) : (otherRows count start len).Pairwise (· < ·) :=
  (indexRange_sorted 0 count).filter _

/-- The block lands between the other rows that were before and behind the destination. -/
theorem moveRangePermutation_eq {count start len dest : ℤ} (hstart : 0 ≤ start)
    (hlen : 0 ≤ len) (hend : start + len ≤ count) (hdest : 0 ≤ dest) (hdest' : dest ≤ count) :
    moveRangePermutation count start len dest =
      (otherRows count start len).filter (· < dest) ++ indexRange start len ++
        (otherRows count start len).filter (dest ≤ ·) := by
  rw [moveRangePermutation]
  split
  · -- an empty block is no move
    rename_i hnone
    have hempty : len = 0 := by
      simp only [Bool.or_eq_true, decide_eq_true_eq] at hnone
      omega
    have hothers : otherRows count start len = indexRange 0 count := by
      rw [otherRows, List.filter_eq_self]
      intro i _
      rw [hempty, Bool.or_eq_true, decide_eq_true_eq, decide_eq_true_eq]
      omega
    have hblock : indexRange start len = [] := by
      rw [hempty]
      rfl
    rw [hblock, List.append_nil, hothers, filter_split_sorted (indexRange_sorted 0 count)]
  · have hsplit := split_sorted (otherRows_sorted count start len) dest
    have htake : (otherRows count start len).take
        ((otherRows count start len).takeWhile fun r => decide (r < dest)).length =
          (otherRows count start len).takeWhile fun r => decide (r < dest) :=
      List.prefix_iff_eq_take.mp (List.takeWhile_prefix _) |>.symm
    have hdrop : (otherRows count start len).drop
        ((otherRows count start len).takeWhile fun r => decide (r < dest)).length =
          (otherRows count start len).dropWhile fun r => decide (r < dest) := by
      have h := congrArg (List.drop
          ((otherRows count start len).takeWhile fun r => decide (r < dest)).length)
        (List.takeWhile_append_dropWhile (p := fun r => decide (r < dest))
          (l := otherRows count start len))
      rw [List.drop_left] at h
      exact h.symm
    rw [← hsplit.1, ← hsplit.2, ← htake, ← hdrop]
    rfl

theorem mem_otherRows {count start len i : ℤ} :
    i ∈ otherRows count start len ↔ (0 ≤ i ∧ i < count) ∧ (i < start ∨ start + len ≤ i) := by
  rw [otherRows, List.mem_filter, mem_indexRange, zero_add, Bool.or_eq_true, decide_eq_true_eq,
    decide_eq_true_eq]

theorem indexRange_append_otherRows {count start len : ℤ} (hstart : 0 ≤ start)
    (hend : start + len ≤ count) :
    (indexRange start len ++ otherRows count start len).Perm (indexRange 0 count) := by
  have hnodup : ∀ {s : List ℤ}, s.Pairwise (· < ·) → s.Nodup := fun h => h.imp fun h => ne_of_lt h
  refine (List.perm_ext_iff_of_nodup ?_ (hnodup (indexRange_sorted 0 count))).mpr fun i => ?_
  · refine (hnodup (indexRange_sorted start len)).append
      (hnodup (otherRows_sorted count start len)) fun i hi hother => ?_
    rw [mem_indexRange] at hi
    have := (mem_otherRows.mp hother).2
    omega
  · rw [List.mem_append, mem_indexRange, mem_otherRows, mem_indexRange]
    omega

theorem moveRangePermutation_perm {count start len dest : ℤ} (hstart : 0 ≤ start)
    (hlen : 0 ≤ len) (hend : start + len ≤ count) (hdest : 0 ≤ dest) (hdest' : dest ≤ count) :
    (moveRangePermutation count start len dest).Perm (indexRange 0 count) := by
  rw [moveRangePermutation_eq hstart hlen hend hdest hdest']
  refine List.Perm.trans (List.perm_append_comm.append_right _) ?_
  rw [List.append_assoc, filter_split_sorted (otherRows_sorted count start len)]
  exact indexRange_append_otherRows hstart hend

/-! ### Deletions -/

theorem getD_set_true {mark : List Bool} {r i : ℕ} :
    (mark.set r true).getD i false = true ↔ mark.getD i false = true ∨ i = r ∧ i < mark.length := by
  rw [List.getD_eq_getElem?_getD, List.getD_eq_getElem?_getD, List.getElem?_set]
  split
  · rename_i hri
    subst hri
    split
    · rename_i hr
      simp [hr]
    · rename_i hr
      simp [hr]
  · rename_i hri
    simp [Ne.symm hri]

theorem markRows_spec (mark : List Bool) (range : ℕ × ℕ) :
    (markRows mark range).length = mark.length ∧ ∀ i, (markRows mark range).getD i false = true ↔
      mark.getD i false = true ∨ (range.1 ≤ i ∧ i < range.2) ∧ i < mark.length := by
  have hset : ∀ (rows : List ℕ) (mark : List Bool),
      (rows.foldl (fun mark i => mark.set i true) mark).length = mark.length ∧
        ∀ i, (rows.foldl (fun mark i => mark.set i true) mark).getD i false = true ↔
          mark.getD i false = true ∨ i ∈ rows ∧ i < mark.length := by
    intro rows
    induction rows with
    | nil => simp
    | cons r rows ih =>
      intro mark
      obtain ⟨hlen, hmem⟩ := ih (mark.set r true)
      rw [List.length_set] at hlen hmem
      refine ⟨hlen, fun i => ?_⟩
      rw [List.foldl_cons, hmem, getD_set_true, List.mem_cons, or_and_right, or_assoc]
  obtain ⟨hlen, hmem⟩ := hset (List.range' range.1 (range.2 - range.1)) mark
  refine ⟨hlen, fun i => ?_⟩
  have hrange : i ∈ List.range' range.1 (range.2 - range.1) ↔ range.1 ≤ i ∧ i < range.2 := by
    rw [List.mem_range'_1]
    omega
  rw [markRows, hmem, hrange]

theorem mem_expandGroupDeletion {indents : List ℤ} {selected : List ℕ} {i : ℕ} :
    i ∈ expandGroupDeletion indents selected ↔
      i < indents.length ∧ ∃ r ∈ selected, i = r ∨ Under (indentOf indents) r i := by
  have hfold : ∀ (rows : List ℕ) (mark : List Bool), mark.length = indents.length →
      (rows.foldl (fun mark r => if r ≥ indents.length then mark
          else markRows (mark.set r true) (descendantRange indents r)) mark).length =
        indents.length ∧
      ∀ i, (rows.foldl (fun mark r => if r ≥ indents.length then mark
          else markRows (mark.set r true) (descendantRange indents r)) mark).getD i false = true ↔
        mark.getD i false = true ∨
          (i < indents.length ∧ ∃ r ∈ rows, i = r ∨ Under (indentOf indents) r i) := by
    intro rows
    induction rows with
    | nil => simp
    | cons r rows ih =>
      intro mark hmark
      rw [List.foldl_cons]
      split
      · -- a row that is none marks nothing
        rename_i hr
        obtain ⟨hlen, hmem⟩ := ih mark hmark
        refine ⟨hlen, fun i => ?_⟩
        rw [hmem]
        refine or_congr_right (and_congr_right fun hi => ?_)
        rw [List.exists_mem_cons_iff]
        refine (or_iff_right ?_).symm
        rintro (rfl | hunder)
        · omega
        · have := hunder.1
          omega
      · rename_i hr
        obtain ⟨hlen', hmem'⟩ := markRows_spec (mark.set r true) (descendantRange indents r)
        rw [List.length_set] at hlen' hmem'
        obtain ⟨hlen, hmem⟩ := ih _ (hlen'.trans hmark)
        refine ⟨hlen, fun i => ?_⟩
        rw [hmem, hmem', getD_set_true, mem_descendantRange, hmark, List.exists_mem_cons_iff]
        by_cases hi : i < indents.length
        · simp only [hi, and_true, true_and, or_assoc]
        · simp only [hi, and_false, false_and, or_false]
  obtain ⟨hlen, hmem⟩ := hfold selected (List.replicate indents.length false) (by simp)
  have hnone : (List.replicate indents.length false).getD i false = false := by
    rw [List.getD_eq_getElem?_getD, List.getElem?_replicate]
    split <;> rfl
  unfold expandGroupDeletion
  dsimp only
  rw [List.mem_filter, List.mem_range, hlen, hmem, hnone]
  simp only [Bool.false_eq_true, false_or]
  exact and_iff_right_of_imp And.left

theorem expandGroupDeletion_sorted (indents : List ℤ) (selected : List ℕ) :
    (expandGroupDeletion indents selected).Pairwise (· < ·) :=
  List.pairwise_lt_range.filter _

def ClosedRows (indents : List ℤ) (rows : Set ℕ) : Prop :=
  ∀ r ∈ rows, ∀ i, (descendantRange indents r).1 ≤ i → i < (descendantRange indents r).2 → i ∈ rows

theorem expandGroupDeletion_closed (indents : List ℤ) (selected : List ℕ) :
    ClosedRows indents {i | i ∈ expandGroupDeletion indents selected} := by
  intro r hr i hlo hhi
  obtain ⟨hi, hunder⟩ := mem_descendantRange.mp ⟨hlo, hhi⟩
  obtain ⟨-, s, hs, hrs⟩ := mem_expandGroupDeletion.mp hr
  refine mem_expandGroupDeletion.mpr ⟨hi, s, hs, Or.inr ?_⟩
  rcases hrs with rfl | hrs
  · exact hunder
  · exact hrs.trans hunder

/-- Collapsing hides what is under a collapsed row; a move is a permutation that keeps the block
together and both parts in order; a deletion takes the least closed set of rows over the
selection. -/
theorem address_list_rows :
    (∀ (indents : List ℤ) (collapsed : List Bool),
      (hiddenByCollapse indents collapsed).length = indents.length ∧
      ∀ i < indents.length, (hiddenByCollapse indents collapsed).getD i false = true ↔
        ∃ j, collapsed.getD j false = true ∧
          (descendantRange indents j).1 ≤ i ∧ i < (descendantRange indents j).2) ∧
    (∀ count start len dest : ℤ, 0 ≤ start → 0 ≤ len → start + len ≤ count → 0 ≤ dest →
      dest ≤ count →
      (moveRangePermutation count start len dest).Perm (indexRange 0 count) ∧
      ∃ before after, moveRangePermutation count start len dest =
          before ++ indexRange start len ++ after ∧
        before ++ after = otherRows count start len ∧
        (∀ i ∈ before, i < dest) ∧ ∀ i ∈ after, dest ≤ i) ∧
    ∀ (indents : List ℤ) (selected : List ℕ),
      (expandGroupDeletion indents selected).Pairwise (· < ·) ∧
      (∀ i ∈ expandGroupDeletion indents selected, i < indents.length) ∧
      (∀ r ∈ selected, r < indents.length → r ∈ expandGroupDeletion indents selected) ∧
      ClosedRows indents {i | i ∈ expandGroupDeletion indents selected} ∧
      ∀ rows : Set ℕ, (∀ r ∈ selected, r < indents.length → r ∈ rows) → ClosedRows indents rows →
        ∀ i ∈ expandGroupDeletion indents selected, i ∈ rows := by
  refine ⟨fun indents collapsed => ⟨hiddenByCollapse_length indents collapsed, fun i hi => ?_⟩,
    fun count start len dest hstart hlen hend hdest hdest' => ⟨?_, ?_⟩,
    fun indents selected => ⟨expandGroupDeletion_sorted indents selected,
      fun i hi => (mem_expandGroupDeletion.mp hi).1,
      fun r hr hlt => mem_expandGroupDeletion.mpr ⟨hlt, r, hr, Or.inl rfl⟩,
      expandGroupDeletion_closed indents selected, fun rows hsel hclosed i hi => ?_⟩⟩
  · rw [hiddenByCollapse_iff hi]
    refine exists_congr fun j => and_congr_right fun _ => ?_
    rw [mem_descendantRange, and_iff_right hi]
  · exact moveRangePermutation_perm hstart hlen hend hdest hdest'
  · refine ⟨_, _, moveRangePermutation_eq hstart hlen hend hdest hdest',
      filter_split_sorted (otherRows_sorted count start len) dest, fun i hi => ?_, fun i hi => ?_⟩
    · exact of_decide_eq_true (List.mem_filter.mp hi).2
    · exact of_decide_eq_true (List.mem_filter.mp hi).2
  · obtain ⟨hlt, r, hr, rfl | hunder⟩ := mem_expandGroupDeletion.mp hi
    · exact hsel _ hr hlt
    · have hrange := mem_descendantRange.mpr ⟨hlt, hunder⟩
      exact hclosed r (hsel r hr (hunder.1.trans hlt)) i hrange.1 hrange.2

/-- A block dropped behind the last row. -/
theorem block_moves_to_end : (moveRangePermutation 5 1 2 5).Perm (indexRange 0 5) :=
  (address_list_rows.2.1 5 1 2 5 (by decide) (by decide) (by decide) (by decide) (by decide)).1

end CheatEngine
