import CheatEngineLinux.Core.AddressList
import Mathlib.Data.List.Sort
import Mathlib.Data.List.Zip

/-!
# Grouping a selection

`groupSelection` (`core/address_list.hpp`) plans a new group header over the selected rows.

* `groupSelection_eq` — **PROVED**: the plan is the rows before the selection, the header, the
  selected rows one level deeper, and the other rows;
* `groupSelection_keeps` — **PROVED**: no row is lost, and both parts keep their order;
* `groupSelection_groups_iff` — **PROVED**: the header's rows are the selected ones where the
  first row left behind is no deeper than the header.
-/

namespace CheatEngine

open IndentTree

/-- What is left of a list where neighbours are equal (`std::unique`). -/
def uniqueRows : List ℕ → List ℕ
  | [] => []
  | a :: rest =>
    match uniqueRows rest with
    | [] => [a]
    | b :: kept => if a = b then b :: kept else a :: b :: kept

/-- The plan of a new group: the old row at each new position, with `-1` for the header, and the
indents there. -/
structure GroupSelectionPlan where
  order : List ℤ := []
  indent : List ℤ := []
  ok : Bool := false
  deriving Repr, DecidableEq

def selectedRows (n : ℕ) (selected : List ℕ) : List ℕ :=
  ((uniqueRows (selected.insertionSort (· ≤ ·))).reverse.dropWhile fun s => decide (s ≥ n)).reverse

def groupRows (indents : List ℤ) (members : List ℕ) (insertAt : ℕ) (minSel : ℤ) : List (ℤ × ℤ) :=
  (List.range indents.length).flatMap fun i =>
    (if i = insertAt then
        (-1, minSel) :: members.map fun s : ℕ => ((s : ℤ), indentOf indents s + 1)
      else [])
      ++ if members.contains i then [] else [((i : ℤ), indentOf indents i)]

def groupSelection (indents : List ℤ) (selected : List ℕ) : GroupSelectionPlan :=
  let members := selectedRows indents.length selected
  match members with
  | [] => {}
  | insertAt :: _ =>
    let minSel := members.foldl (fun m s => min m (indentOf indents s)) (indentOf indents insertAt)
    let rows := groupRows indents members insertAt minSel
    { order := rows.map Prod.fst, indent := rows.map Prod.snd, ok := true }

/-! ### The selected rows -/

theorem mem_uniqueRows {s : List ℕ} {a : ℕ} : a ∈ uniqueRows s ↔ a ∈ s := by
  induction s with
  | nil => rfl
  | cons b s ih =>
    rw [uniqueRows, List.mem_cons, ← ih]
    cases uniqueRows s with
    | nil => simp
    | cons c kept =>
      dsimp only
      split
      · rename_i hbc
        rw [hbc, List.mem_cons, or_self_left]
      · rw [List.mem_cons]

theorem uniqueRows_sorted {s : List ℕ} (h : s.Pairwise (· ≤ ·)) :
    (uniqueRows s).Pairwise (· < ·) := by
  induction s with
  | nil => exact List.Pairwise.nil
  | cons b s ih =>
    have hs := ih h.of_cons
    have hb : ∀ a ∈ uniqueRows s, b ≤ a := fun a ha =>
      List.rel_of_pairwise_cons h (mem_uniqueRows.mp ha)
    rw [uniqueRows]
    cases hu : uniqueRows s with
    | nil => exact List.pairwise_singleton _ _
    | cons c kept =>
      rw [hu] at hs hb
      dsimp only
      split
      · exact hs
      · rename_i hbc
        refine List.Pairwise.cons (fun a ha => ?_) hs
        have hbc' : b < c := lt_of_le_of_ne (hb c List.mem_cons_self) hbc
        rcases List.mem_cons.mp ha with rfl | ha
        · exact hbc'
        · exact hbc'.trans (List.rel_of_pairwise_cons hs ha)

theorem selectedRows_eq {n : ℕ} {selected : List ℕ} (h : ∀ s ∈ selected, s < n) :
    selectedRows n selected = (List.range n).filter (· ∈ selected) := by
  have hmem : ∀ a, a ∈ uniqueRows (selected.insertionSort (· ≤ ·)) ↔ a ∈ selected := fun a => by
    rw [mem_uniqueRows, List.mem_insertionSort]
  have hkept : selectedRows n selected = uniqueRows (selected.insertionSort (· ≤ ·)) := by
    rw [selectedRows, List.reverse_eq_iff]
    cases hlast : (uniqueRows (selected.insertionSort (· ≤ ·))).reverse with
    | nil => rfl
    | cons a rest =>
      have ha : a ∈ selected := by
        rw [← hmem, ← List.mem_reverse, hlast]
        exact List.mem_cons_self
      rw [List.dropWhile_cons_of_neg (by simpa using h a ha)]
  rw [hkept]
  refine (uniqueRows_sorted (List.pairwise_insertionSort _ selected)).eq_of_mem_iff
    (List.pairwise_lt_range.filter _) fun a => ?_
  rw [hmem, List.mem_filter, List.mem_range, decide_eq_true_eq]
  exact (and_iff_right_of_imp (h a)).symm

/-! ### The plan -/

section Plan

variable {indents : List ℤ} {selected : List ℕ}

def memberRows (indents : List ℤ) (selected : List ℕ) : List ℕ :=
  (List.range indents.length).filter (· ∈ selected)

def remainingRows (indents : List ℤ) (selected : List ℕ) : List ℕ :=
  (List.range indents.length).filter (· ∉ selected)

abbrev aboveRows (indents : List ℤ) (selected : List ℕ) (first : ℕ) : List ℕ :=
  (remainingRows indents selected).filter (· < first)

abbrev behindRows (indents : List ℤ) (selected : List ℕ) (first : ℕ) : List ℕ :=
  (remainingRows indents selected).filter (first < ·)

theorem mem_memberRows {r : ℕ} :
    r ∈ memberRows indents selected ↔ r < indents.length ∧ r ∈ selected := by
  rw [memberRows, List.mem_filter, List.mem_range, decide_eq_true_eq]

theorem mem_remainingRows {r : ℕ} :
    r ∈ remainingRows indents selected ↔ r < indents.length ∧ r ∉ selected := by
  rw [remainingRows, List.mem_filter, List.mem_range, decide_eq_true_eq]

def keptRow (indents : List ℤ) (r : ℕ) : ℤ × ℤ := ((r : ℤ), indentOf indents r)

def nestedRow (indents : List ℤ) (r : ℕ) : ℤ × ℤ := ((r : ℤ), indentOf indents r + 1)

theorem flatMap_kept {insertAt : ℕ} {minSel : ℤ} (rows : List ℕ) (h : insertAt ∉ rows) :
    (rows.flatMap fun i =>
      (if i = insertAt then
          (-1, minSel) :: (memberRows indents selected).map (nestedRow indents)
        else [])
        ++ if (memberRows indents selected).contains i then [] else [keptRow indents i]) =
      (rows.filter (· ∉ memberRows indents selected)).map (keptRow indents) := by
  induction rows with
  | nil => rfl
  | cons i rows ih =>
    rw [List.mem_cons, not_or] at h
    obtain ⟨hi, hrows⟩ := h
    rw [List.flatMap_cons, ih hrows, if_neg (Ne.symm hi), List.nil_append]
    by_cases hmem : i ∈ memberRows indents selected
    · rw [if_pos (by simpa using hmem), List.filter_cons_of_neg (by simpa using hmem)]
      rfl
    · rw [if_neg (by simpa using hmem), List.filter_cons_of_pos (by simpa using hmem)]
      rfl

theorem filter_not_memberRows {rows : List ℕ} (h : ∀ r ∈ rows, r < indents.length) :
    rows.filter (· ∉ memberRows indents selected) = rows.filter (· ∉ selected) := by
  refine List.filter_congr fun r hr => ?_
  rw [decide_eq_decide, mem_memberRows, and_iff_right (h r hr)]

theorem groupRows_eq {insertAt : ℕ} (hat : insertAt ∈ memberRows indents selected) (minSel : ℤ) :
    groupRows indents (memberRows indents selected) insertAt minSel =
      ((remainingRows indents selected).filter (· < insertAt)).map (keptRow indents) ++
        (-1, minSel) :: (memberRows indents selected).map (nestedRow indents) ++
          ((remainingRows indents selected).filter (insertAt < ·)).map (keptRow indents) := by
  obtain ⟨hlt, hsel⟩ := mem_memberRows.mp hat
  have hrange : List.range indents.length =
      List.range insertAt ++
        insertAt :: List.range' (insertAt + 1) (indents.length - insertAt - 1) := by
    rw [List.range_eq_range', List.range_eq_range', ← List.range'_succ, List.range'_eq_append_iff]
    exact ⟨insertAt, by omega, rfl, by congr 1 <;> omega⟩
  have hsorted : (remainingRows indents selected).Pairwise (· < ·) :=
    List.pairwise_lt_range.filter _
  have hbefore : (remainingRows indents selected).filter (· < insertAt) =
      (List.range insertAt).filter (· ∉ selected) := by
    refine (hsorted.filter _).eq_of_mem_iff (List.pairwise_lt_range.filter _) fun r => ?_
    simp only [List.mem_filter, mem_remainingRows, List.mem_range, decide_eq_true_eq]
    exact ⟨fun h => ⟨h.2, h.1.2⟩, fun h => ⟨⟨h.1.trans hlt, h.2⟩, h.1⟩⟩
  have hbehind : (remainingRows indents selected).filter (insertAt < ·) =
      (List.range' (insertAt + 1) (indents.length - insertAt - 1)).filter (· ∉ selected) := by
    refine (hsorted.filter _).eq_of_mem_iff ((List.pairwise_lt_range' ..).filter _) fun r => ?_
    simp only [List.mem_filter, mem_remainingRows, List.mem_range'_1, decide_eq_true_eq]
    exact ⟨fun h => ⟨by omega, h.1.2⟩, fun h => ⟨⟨by omega, h.2⟩, by omega⟩⟩
  rw [groupRows, hrange, List.flatMap_append, List.flatMap_cons]
  have hfront := @flatMap_kept indents selected insertAt minSel (List.range insertAt) (by simp)
  have hback := @flatMap_kept indents selected insertAt minSel
    (List.range' (insertAt + 1) (indents.length - insertAt - 1)) (by simp [List.mem_range'_1])
  rw [filter_not_memberRows fun r hr => (List.mem_range.mp hr).trans hlt] at hfront
  rw [filter_not_memberRows fun r hr => by rw [List.mem_range'_1] at hr; omega] at hback
  rw [hbefore, hbehind, ← hfront, ← hback, if_pos rfl, if_pos (by simpa using hat),
    List.append_nil, List.append_assoc]
  rfl

theorem foldl_min_le (f : ℕ → ℤ) (rows : List ℕ) (start : ℤ) :
    rows.foldl (fun m s => min m (f s)) start ≤ start ∧
      (∀ s ∈ rows, rows.foldl (fun m s => min m (f s)) start ≤ f s) ∧
      ∀ d ≤ start, (∀ s ∈ rows, d ≤ f s) → d ≤ rows.foldl (fun m s => min m (f s)) start := by
  induction rows generalizing start with
  | nil => simp
  | cons r rows ih =>
    obtain ⟨hstart, hrows, hle⟩ := ih (min start (f r))
    rw [List.foldl_cons]
    refine ⟨hstart.trans (min_le_left _ _), fun s hs => ?_,
      fun d hd hall => hle d ?_ fun s hs => ?_⟩
    · rcases List.mem_cons.mp hs with rfl | hs
      · exact hstart.trans (min_le_right _ _)
      · exact hrows s hs
    · exact le_min hd (hall r List.mem_cons_self)
    · exact hall s (List.mem_cons_of_mem _ hs)

/-- What a plan is made of: the rows before its first member, the header, the members one level
deeper, and the rows behind. -/
structure PlanParts (indents : List ℤ) (selected : List ℕ) (plan : GroupSelectionPlan)
    (first : ℕ) (header : ℤ) : Prop where
  mem : first ∈ memberRows indents selected
  earliest : ∀ s ∈ memberRows indents selected, first ≤ s
  shallowest : ∀ d, d ≤ header ↔ ∀ s ∈ selected, d ≤ indentOf indents s
  order : plan.order = (aboveRows indents selected first).map Nat.cast ++
    -1 :: ((memberRows indents selected).map Nat.cast ++
      (behindRows indents selected first).map Nat.cast)
  indent : plan.indent = (aboveRows indents selected first).map (indentOf indents) ++
    header :: ((memberRows indents selected).map (fun s => indentOf indents s + 1) ++
      (behindRows indents selected first).map (indentOf indents))
  ok : plan.ok = true

theorem groupSelection_eq (hne : selected ≠ []) (hin : ∀ s ∈ selected, s < indents.length) :
    ∃ first header, PlanParts indents selected (groupSelection indents selected) first header := by
  have hmembers : selectedRows indents.length selected = memberRows indents selected :=
    selectedRows_eq hin
  obtain ⟨s, hs⟩ := List.exists_mem_of_ne_nil selected hne
  have hmem : s ∈ memberRows indents selected := mem_memberRows.mpr ⟨hin s hs, hs⟩
  have hsorted : (memberRows indents selected).Pairwise (· < ·) := List.pairwise_lt_range.filter _
  cases hm : memberRows indents selected with
  | nil =>
    rw [hm] at hmem
    cases hmem
  | cons first rest =>
    have hfirst : first ∈ memberRows indents selected := by
      rw [hm]
      exact List.mem_cons_self
    obtain ⟨header, hheader⟩ : ∃ header, header = (memberRows indents selected).foldl
      (fun m s => min m (indentOf indents s)) (indentOf indents first) := ⟨_, rfl⟩
    have hplan : groupSelection indents selected =
        { order := (groupRows indents (memberRows indents selected) first header).map Prod.fst
          indent := (groupRows indents (memberRows indents selected) first header).map Prod.snd
          ok := true } := by
      rw [hheader]
      unfold groupSelection
      rw [hmembers]
      simp only [hm]
    obtain ⟨hstart, hall, hle⟩ := foldl_min_le (indentOf indents) (memberRows indents selected)
      (indentOf indents first)
    rw [← hheader] at hstart hall hle
    rw [hplan, groupRows_eq hfirst]
    refine ⟨first, header, hfirst, fun s hs => ?_,
      fun d => ⟨fun hd s hs => ?_, fun h => hle d ?_ fun s hs => ?_⟩, ?_, ?_, rfl⟩
    · rw [hm] at hs hsorted
      rcases List.mem_cons.mp hs with rfl | hs
      · exact le_rfl
      · exact (List.rel_of_pairwise_cons hsorted hs).le
    · exact hd.trans (hall s (mem_memberRows.mpr ⟨hin s hs, hs⟩))
    · exact h first (mem_memberRows.mp hfirst).2
    · exact h s (mem_memberRows.mp hs).2
    · simp only [List.map_append, List.map_cons, List.map_map, List.append_assoc, List.cons_append]
      rfl
    · simp only [List.map_append, List.map_cons, List.map_map, List.append_assoc, List.cons_append]
      rfl

structure KeepsRows (indents : List ℤ) (selected : List ℕ) (plan : GroupSelectionPlan) : Prop where
  ok : plan.ok = true
  rows : plan.order.Perm (-1 :: indexRange 0 indents.length)
  lengths : plan.indent.length = plan.order.length
  othersOrder : plan.order.filter (fun r => 0 ≤ r ∧ r.toNat ∉ selected) =
    (remainingRows indents selected).map Nat.cast
  membersOrder : plan.order.filter (fun r => 0 ≤ r ∧ r.toNat ∈ selected) =
    (memberRows indents selected).map Nat.cast
  kept : ∀ (r : ℕ) (d : ℤ), ((r : ℤ), d) ∈ plan.order.zip plan.indent → r ∉ selected →
    d = indentOf indents r
  nested : ∀ (r : ℕ) (d : ℤ), ((r : ℤ), d) ∈ plan.order.zip plan.indent → r ∈ selected →
    d = indentOf indents r + 1

theorem remainingRows_split {first : ℕ} (hfirst : first ∈ memberRows indents selected) :
    aboveRows indents selected first ++ behindRows indents selected first =
      remainingRows indents selected := by
  have hsorted : (remainingRows indents selected).Pairwise (· < ·) :=
    List.pairwise_lt_range.filter _
  refine List.Pairwise.eq_of_mem_iff (r := (· < ·)) ?_ hsorted fun r => ?_
  · refine List.pairwise_append.mpr ⟨hsorted.filter _, hsorted.filter _, fun a ha b hb => ?_⟩
    have ha := of_decide_eq_true (List.mem_filter.mp ha).2
    have hb := of_decide_eq_true (List.mem_filter.mp hb).2
    exact ha.trans hb
  · rw [List.mem_append, List.mem_filter, List.mem_filter, decide_eq_true_eq, decide_eq_true_eq,
      ← and_or_left]
    refine and_iff_left_of_imp fun hr => Nat.lt_or_gt_of_ne ?_
    rintro rfl
    exact (mem_remainingRows.mp hr).2 (mem_memberRows.mp hfirst).2

theorem PlanParts.zip {plan : GroupSelectionPlan} {first : ℕ} {header : ℤ}
    (h : PlanParts indents selected plan first header) : plan.order.zip plan.indent =
      (aboveRows indents selected first).map (keptRow indents) ++
        (-1, header) :: ((memberRows indents selected).map (nestedRow indents) ++
          (behindRows indents selected first).map (keptRow indents)) := by
  rw [h.order, h.indent, List.zip_append (by rw [List.length_map, List.length_map]),
    List.zip_cons_cons, List.zip_append (by rw [List.length_map, List.length_map]), List.zip_map',
    List.zip_map', List.zip_map']
  rfl

theorem filter_cast (p : ℕ → Prop) [DecidablePred p] (rows : List ℕ) :
    (rows.map Nat.cast).filter (fun r : ℤ => 0 ≤ r ∧ p r.toNat) =
      (rows.filter (p ·)).map Nat.cast := by
  rw [List.filter_map]
  congr 1
  refine List.filter_congr fun r _ => ?_
  simp

theorem PlanParts.order_filter {plan : GroupSelectionPlan} {first : ℕ} {header : ℤ}
    (h : PlanParts indents selected plan first header) (p : ℕ → Prop) [DecidablePred p] :
    plan.order.filter (fun r => 0 ≤ r ∧ p r.toNat) =
      (((aboveRows indents selected first) ++ (memberRows indents selected ++
        behindRows indents selected first)).filter (p ·)).map Nat.cast := by
  rw [h.order, List.filter_append, List.filter_cons_of_neg (by simp), List.filter_append,
    filter_cast, filter_cast, filter_cast, List.filter_append, List.filter_append, List.map_append,
    List.map_append]

theorem groupSelection_keeps (hne : selected ≠ []) (hin : ∀ s ∈ selected, s < indents.length) :
    KeepsRows indents selected (groupSelection indents selected) := by
  obtain ⟨first, header, h⟩ := groupSelection_eq hne hin
  have hothers : ∀ rows : List ℕ, (∀ r ∈ rows, r ∈ remainingRows indents selected) →
      rows.filter (· ∉ selected) = rows ∧ rows.filter (· ∈ selected) = [] := by
    intro rows hrows
    refine ⟨List.filter_eq_self.mpr fun r hr => ?_, List.filter_eq_nil_iff.mpr fun r hr => ?_⟩
    · exact decide_eq_true (mem_remainingRows.mp (hrows r hr)).2
    · simpa using (mem_remainingRows.mp (hrows r hr)).2
  have hmembers :
      (memberRows indents selected).filter (· ∈ selected) = memberRows indents selected ∧
      (memberRows indents selected).filter (· ∉ selected) = [] := by
    refine ⟨List.filter_eq_self.mpr fun r hr => ?_, List.filter_eq_nil_iff.mpr fun r hr => ?_⟩
    · exact decide_eq_true (mem_memberRows.mp hr).2
    · simpa using (mem_memberRows.mp hr).2
  obtain ⟨hb, hb'⟩ := hothers _ fun r hr => (List.mem_filter (p := (· < first)).mp hr).1
  obtain ⟨ha, ha'⟩ := hothers _ fun r hr => (List.mem_filter (p := (first < ·)).mp hr).1
  have hpairs : ∀ (r : ℕ) (d : ℤ),
      ((r : ℤ), d) ∈ (groupSelection indents selected).order.zip
        (groupSelection indents selected).indent →
      (r ∈ remainingRows indents selected ∧ d = indentOf indents r) ∨
        (r ∈ memberRows indents selected ∧ d = indentOf indents r + 1) := by
    intro r d hmem
    rw [h.zip] at hmem
    simp only [List.mem_append, List.mem_cons, List.mem_map, List.mem_filter, keptRow, nestedRow,
      Prod.mk.injEq, Nat.cast_inj] at hmem
    rcases hmem with ⟨s, ⟨hs, -⟩, rfl, rfl⟩ | ⟨hneg, -⟩ | ⟨s, hs, rfl, rfl⟩ | ⟨s, ⟨hs, -⟩, rfl, rfl⟩
    · exact Or.inl ⟨hs, rfl⟩
    · omega
    · exact Or.inr ⟨hs, rfl⟩
    · exact Or.inl ⟨hs, rfl⟩
  refine ⟨h.ok, ?_, ?_, ?_, ?_, fun r d hmem hr => ?_, fun r d hmem hr => ?_⟩
  · have hrange : indexRange 0 (indents.length : ℤ) = (List.range indents.length).map Nat.cast := by
      rw [indexRange, Int.toNat_natCast]
      exact List.map_congr_left fun k _ => zero_add _
    rw [h.order, hrange]
    refine List.perm_middle.trans (List.Perm.cons _ ?_)
    rw [← List.map_append, ← List.map_append]
    refine List.Perm.map _ ?_
    rw [← List.append_assoc]
    refine (List.perm_append_comm.append_right _).trans ?_
    rw [List.append_assoc, remainingRows_split h.mem]
    have := List.filter_append_perm (· ∈ selected) (List.range indents.length)
    simpa only [memberRows, remainingRows, decide_not] using this
  · rw [h.order, h.indent]
    simp
  · rw [h.order_filter (· ∉ selected), List.filter_append, List.filter_append, hb, ha, hmembers.2,
      List.nil_append, remainingRows_split h.mem]
  · rw [h.order_filter (· ∈ selected), List.filter_append, List.filter_append, hb', ha', hmembers.1,
      List.nil_append, List.append_nil]
  · rcases hpairs r d hmem with h | h
    · exact h.2
    · exact absurd (mem_memberRows.mp h.1).2 hr
  · rcases hpairs r d hmem with h | h
    · exact absurd hr (mem_remainingRows.mp h.1).2
    · exact h.2

structure GroupsSelection (indents : List ℤ) (selected : List ℕ) (plan : GroupSelectionPlan) : Prop
    extends KeepsRows indents selected plan where
  subtree : ∀ h, plan.order[h]? = some (-1) → ∀ p,
    ((descendantRange plan.indent h).1 ≤ p ∧ p < (descendantRange plan.indent h).2) ↔
      ∃ s ∈ selected, plan.order[p]? = some (s : ℤ)

structure LeftBehind (indents : List ℤ) (selected : List ℕ) (r : ℕ) : Prop where
  row : r < indents.length
  unselected : r ∉ selected
  below : ∃ s ∈ selected, s < r
  first : ∀ k < r, k ∉ selected → ∀ s ∈ selected, k < s

namespace PlanParts

variable {plan : GroupSelectionPlan} {first : ℕ} {header : ℤ}

theorem header_at (h : PlanParts indents selected plan first header) {k : ℕ} :
    plan.order[k]? = some (-1) ↔ k = (aboveRows indents selected first).length := by
  have hcast : ∀ rows : List ℕ, ∀ j : ℕ, (rows.map Nat.cast)[j]? ≠ some (-1 : ℤ) := by
    intro rows j hj
    obtain ⟨r, -, hr⟩ := List.mem_map.mp (List.mem_of_getElem? hj)
    omega
  have hlen : (aboveRows indents selected first).length =
      ((aboveRows indents selected first).map (Nat.cast : ℕ → ℤ)).length := by
    rw [List.length_map]
  rw [h.order, hlen]
  constructor
  · intro hk
    rcases Nat.lt_trichotomy k
      ((aboveRows indents selected first).map (Nat.cast : ℕ → ℤ)).length with
      hlt | heq | hgt
    · rw [List.getElem?_append_left hlt] at hk
      exact absurd hk (hcast _ k)
    · exact heq
    · rw [List.getElem?_append_right hgt.le, List.getElem?_cons, if_neg (by omega),
        ← List.map_append] at hk
      exact absurd hk (hcast _ _)
  · intro hk
    rw [hk, List.getElem?_append_right le_rfl, Nat.sub_self]
    rfl

theorem selected_at (h : PlanParts indents selected plan first header) {p : ℕ} :
    (∃ s ∈ selected, plan.order[p]? = some (s : ℤ)) ↔
      (aboveRows indents selected first).length + 1 ≤ p ∧
        p < (aboveRows indents selected first).length + 1 +
          (memberRows indents selected).length := by
  have hcast : ∀ (rows : List ℕ) (j s : ℕ),
      (rows.map Nat.cast)[j]? = some (s : ℤ) ↔ rows[j]? = some s := by
    intro rows j s
    rw [List.getElem?_map, Option.map_eq_some_iff]
    exact ⟨fun ⟨r, hr, hrs⟩ => by rw [hr, Nat.cast_inj.mp hrs], fun hr => ⟨s, hr, rfl⟩⟩
  -- neither part of the other rows holds a selected one
  have hother : ∀ (q : ℕ → Bool) (j s : ℕ), s ∈ selected →
      ((remainingRows indents selected).filter q)[j]? ≠ some s := by
    intro q j s hs hj
    exact (mem_remainingRows.mp (List.mem_filter.mp (List.mem_of_getElem? hj)).1).2 hs
  rw [h.order]
  rcases Nat.lt_trichotomy p (aboveRows indents selected first).length with
    hlt | heq | hgt
  · constructor
    · rintro ⟨s, hs, hp⟩
      rw [List.getElem?_append_left (by rwa [List.length_map]), hcast] at hp
      exact absurd hp (hother _ p s hs)
    · omega
  · constructor
    · rintro ⟨s, hs, hp⟩
      rw [heq, List.getElem?_append_right (by rw [List.length_map]), List.length_map,
        Nat.sub_self, List.getElem?_cons_zero, Option.some_inj] at hp
      omega
    · omega
  · obtain ⟨k, rfl⟩ : ∃ k, p = (aboveRows indents selected first).length + 1 + k :=
      ⟨p - ((aboveRows indents selected first).length + 1), by omega⟩
    have hshift : ∀ rest : List ℤ, ((aboveRows indents selected first).map Nat.cast ++
        -1 :: rest)[(aboveRows indents selected first).length + 1 + k]? = rest[k]? := by
      intro rest
      rw [List.getElem?_append_right (by rw [List.length_map]; omega), List.length_map,
        show (aboveRows indents selected first).length + 1 + k -
          (aboveRows indents selected first).length = k + 1 by omega,
        List.getElem?_cons_succ]
    rw [hshift, ← List.map_append]
    simp only [hcast]
    constructor
    · rintro ⟨s, hs, hk⟩
      refine ⟨by omega, ?_⟩
      by_contra hge
      rw [List.getElem?_append_right (by omega)] at hk
      exact hother _ _ s hs hk
    · rintro ⟨-, hk⟩
      have hk : k < (memberRows indents selected).length := by omega
      refine ⟨(memberRows indents selected)[k], (mem_memberRows.mp (List.getElem_mem hk)).2, ?_⟩
      rw [List.getElem?_append_left hk, List.getElem?_eq_getElem hk]

theorem head_behind (h : PlanParts indents selected plan first header)
    (hin : ∀ s ∈ selected, s < indents.length) {r : ℕ} :
    (behindRows indents selected first).head? = some r ↔
      LeftBehind indents selected r := by
  have hsorted : (behindRows indents selected first).Pairwise (· < ·) :=
    (List.pairwise_lt_range.filter _).filter _
  have hfirst := (mem_memberRows.mp h.mem).2
  have hearliest : ∀ s ∈ selected, first ≤ s := fun s hs =>
    h.earliest s (mem_memberRows.mpr ⟨hin s hs, hs⟩)
  have hmem : ∀ k, k ∈ behindRows indents selected first ↔
      (k < indents.length ∧ k ∉ selected) ∧ first < k := by
    intro k
    rw [List.mem_filter, mem_remainingRows, decide_eq_true_eq]
  constructor
  · intro hr
    obtain ⟨rest, hrest⟩ := List.head?_eq_some_iff.mp hr
    obtain ⟨⟨hlt, hunsel⟩, hbelow⟩ := (hmem r).mp (List.mem_of_mem_head? hr)
    refine ⟨hlt, hunsel, ⟨first, hfirst, hbelow⟩, fun k hk hkunsel s hs => ?_⟩
    have hkfirst : k < first := by
      by_contra hge
      have hne : k ≠ first := fun heq => hkunsel (heq ▸ hfirst)
      have hkmem := (hmem k).mpr ⟨⟨hk.trans hlt, hkunsel⟩, by omega⟩
      rw [hrest] at hkmem hsorted
      rcases List.mem_cons.mp hkmem with rfl | hkmem
      · omega
      · have := List.rel_of_pairwise_cons hsorted hkmem
        omega
    exact hkfirst.trans_le (hearliest s hs)
  · rintro ⟨hlt, hunsel, ⟨s, hs, hsr⟩, hleast⟩
    have hrmem := (hmem r).mpr ⟨⟨hlt, hunsel⟩, (hearliest s hs).trans_lt hsr⟩
    cases hlist : behindRows indents selected first with
    | nil =>
      rw [hlist] at hrmem
      cases hrmem
    | cons k rest =>
      have hkmem := (hmem k).mp (hlist ▸ List.mem_cons_self)
      rw [hlist] at hrmem hsorted
      rcases List.mem_cons.mp hrmem with rfl | hrmem
      · rfl
      · have hkr := List.rel_of_pairwise_cons hsorted hrmem
        have := hleast k hkr hkmem.1.2 first hfirst
        omega

theorem descendantRange_header (h : PlanParts indents selected plan first header) :
    descendantRange plan.indent (aboveRows indents selected first).length =
      ((aboveRows indents selected first).length + 1,
        (aboveRows indents selected first).length + 1 +
          ((memberRows indents selected).length + (((behindRows indents selected first).map
            (indentOf indents)).takeWhile fun d => decide (d > header)).length)) := by
  have hheader : plan.indent[(aboveRows indents selected first).length]? =
      some header := by
    rw [h.indent, List.getElem?_append_right (by rw [List.length_map]), List.length_map,
      Nat.sub_self]
    rfl
  have hrest : plan.indent.drop ((aboveRows indents selected first).length + 1) =
      (memberRows indents selected).map (fun s => indentOf indents s + 1) ++
        (behindRows indents selected first).map (indentOf indents) := by
    rw [h.indent, List.drop_append, List.drop_eq_nil_of_le (by rw [List.length_map]; omega),
      List.nil_append, List.length_map, Nat.add_sub_cancel_left]
    rfl
  rw [descendantRange, hheader]
  dsimp only
  rw [hrest, List.takeWhile_append_of_pos, List.length_append, List.length_map]
  intro d hd
  obtain ⟨s, hs, rfl⟩ := List.mem_map.mp hd
  have := (h.shallowest header).mp le_rfl s (mem_memberRows.mp hs).2
  exact decide_eq_true (by omega)

end PlanParts

/-- The header holds the selected rows, and no others, where the first row left behind below the
selection is no deeper than any selected row. -/
theorem groupSelection_groups_iff (indents : List ℤ) (selected : List ℕ) (hne : selected ≠ [])
    (hin : ∀ s ∈ selected, s < indents.length) :
    GroupsSelection indents selected (groupSelection indents selected) ↔
      ∀ r, LeftBehind indents selected r →
        ∀ s ∈ selected, indentOf indents r ≤ indentOf indents s := by
  obtain ⟨first, header, h⟩ := groupSelection_eq hne hin
  -- the rows that follow the selected ones under the header
  have hfollow : (∀ r, LeftBehind indents selected r →
      ∀ s ∈ selected, indentOf indents r ≤ indentOf indents s) ↔
        (((behindRows indents selected first).map (indentOf indents)).takeWhile
          fun d => decide (d > header)).length = 0 := by
    rw [List.length_eq_zero_iff]
    cases hlist : behindRows indents selected first with
    | nil =>
      refine iff_of_true (fun r hr => ?_) rfl
      have := (h.head_behind hin).mpr hr
      rw [hlist] at this
      cases this
    | cons k rest =>
      have hk : LeftBehind indents selected k := (h.head_behind hin).mp (by rw [hlist]; rfl)
      rw [List.map_cons]
      constructor
      · intro hall
        have := (h.shallowest _).mpr (hall k hk)
        exact List.takeWhile_cons_of_neg (by simpa using this)
      · intro hnil r hr
        have hkr := (h.head_behind hin).mpr hr
        rw [hlist, List.head?_cons, Option.some_inj] at hkr
        subst hkr
        refine (h.shallowest _).mp (not_lt.mp fun hdeep => ?_)
        rw [List.takeWhile_cons_of_pos (by simpa using hdeep)] at hnil
        cases hnil
  rw [hfollow]
  constructor
  · intro hgroup
    by_contra hdeep
    have hrange := hgroup.subtree _ (h.header_at.mpr rfl)
      ((aboveRows indents selected first).length + 1 + (memberRows indents selected).length)
    rw [h.descendantRange_header, h.selected_at] at hrange
    have := hrange.mp ⟨by dsimp only; omega, by dsimp only; omega⟩
    omega
  · intro hnone
    refine ⟨groupSelection_keeps hne hin, fun k hk p => ?_⟩
    rw [h.header_at.mp hk, h.descendantRange_header, hnone, Nat.add_zero]
    exact h.selected_at.symm

end Plan

/-- Rows side by side: the one between the selected ones falls out below the group. -/
theorem siblings_grouped : GroupsSelection [0, 0, 0] [0, 2] (groupSelection [0, 0, 0] [0, 2]) :=
  (groupSelection_groups_iff [0, 0, 0] [0, 2] (by decide) (by decide)).mpr fun r hr s hs => by
    have hzero : ∀ k < 3, indentOf [0, 0, 0] k = 0 := by decide
    have hs : s < 3 := (by decide : ∀ s ∈ [0, 2], s < 3) s hs
    rw [hzero r hr.row, hzero s hs]

/-- A parent that is grouped without its child: the child is under the header too. -/
theorem child_follows_parent :
    groupSelection [0, 1] [0] = ⟨[-1, 0, 1], [0, 1, 1], true⟩ ∧
      descendantRange [0, 1, 1] 0 = (1, 3) ∧
      ¬ GroupsSelection [0, 1] [0] (groupSelection [0, 1] [0]) := by
  have hplan : groupSelection [0, 1] [0] = ⟨[-1, 0, 1], [0, 1, 1], true⟩ := by decide
  refine ⟨hplan, by decide, fun h => ?_⟩
  have hsub := h.subtree 0
  rw [hplan] at hsub
  obtain ⟨s, hs, hp⟩ := (hsub rfl 2).mp (by decide)
  rw [List.mem_singleton.mp hs] at hp
  exact absurd hp (by decide)

end CheatEngine
