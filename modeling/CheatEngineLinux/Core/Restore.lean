import Mathlib.Data.List.Induction
import CheatEngineLinux.Core.Cleanup

/-!
# Restoring saved bytes and protections

What the parts of an undo do when no call meets an obstacle.

* **PROVED `firstMismatch_eq_none`**: the check before and after the writes passes exactly when
  every saved byte is in place, however the saved ranges overlap, touch and are cut into pieces.
* **PROVED `restoreBytes_ok`**: the undo's writes leave each byte with the original of the earliest
  patch over it, and every other byte alone.
* **PROVED `codeOwnershipConflict_eq_none`**: code whose bytes are all in a saved state is accepted.
-/

namespace CheatEngine.AutoAssembler

open ByteOverlay Stages

/-! ### Loops that only look -/

section loops

variable {α β : Type}

theorem firstSome_eq_none {f : α → Op (Option β)} (hf : ∀ x, Moves Target.Looked (f x))
    {xs : List α} {t : Target}
    (h : ∀ x ∈ xs, ∀ n, t.clock ≤ n → (f x (t.after n)).1 = none) :
    (firstSome f xs t).1 = none := by
  induction xs generalizing t with
  | nil => rfl
  | cons x xs ih =>
    have hx := h x List.mem_cons_self t.clock (Nat.le_refl _)
    obtain ⟨n, hn, hnext⟩ := hf x t
    change (f x t).1 = none at hx
    rw [firstSome, bind_apply, hx, hnext]
    refine ih fun y hy k hk => ?_
    exact h y (List.mem_cons_of_mem _ hy) k (Nat.le_trans hn hk)

theorem of_firstSome_eq_none {f : α → Op (Option β)} (hf : ∀ x, Moves Target.Looked (f x))
    {xs : List α} {t : Target} (h : (firstSome f xs t).1 = none) :
    ∀ x ∈ xs, ∃ n, t.clock ≤ n ∧ (f x (t.after n)).1 = none := by
  induction xs generalizing t with
  | nil => exact fun x hx => absurd hx List.not_mem_nil
  | cons x xs ih =>
    obtain ⟨n, hn, hnext⟩ := hf x t
    rw [firstSome, bind_apply] at h
    intro y hy
    cases hx : (f x t).1 with
    | some z =>
      rw [hx] at h
      cases h
    | none =>
      rw [hx, hnext] at h
      rcases List.mem_cons.mp hy with rfl | hy
      · exact ⟨t.clock, Nat.le_refl _, hx⟩
      · obtain ⟨k, hk, hfound⟩ := ih h y hy
        exact ⟨k, Nat.le_trans hn hk, hfound⟩

theorem orElse_eq_none {a b : Op (Option β)} (ha : Moves Target.Looked a) {t : Target}
    (hnone : (a t).1 = none) (hb : ∀ n, t.clock ≤ n → (b (t.after n)).1 = none) :
    (orElse a b t).1 = none := by
  obtain ⟨n, hn, hnext⟩ := ha t
  rw [orElse, bind_apply, hnone, hnext]
  exact hb n hn

theorem keep_eq_self {f : α → Op Bool} (hf : ∀ x, Moves Target.Looked (f x)) {xs : List α}
    {t : Target} (h : ∀ x ∈ xs, ∀ n, t.clock ≤ n → (f x (t.after n)).1 = true) :
    (keep f xs t).1 = xs := by
  induction xs generalizing t with
  | nil => rfl
  | cons x xs ih =>
    have hx := h x List.mem_cons_self t.clock (Nat.le_refl _)
    obtain ⟨n, hn, hnext⟩ := hf x t
    change (if (f x t).1 then x :: (keep f xs (f x t).2).1 else (keep f xs (f x t).2).1) = _
    change (f x t).1 = true at hx
    rw [if_pos hx, hnext]
    rw [ih (t := t.after n) fun y hy k hk =>
      h y (List.mem_cons_of_mem _ hy) k (Nat.le_trans hn hk)]

end loops

/-! ### Nothing is in the way -/

theorem isMapped_eq_true {t : Target} (h : t.Obliging) {address size : ℕ} (hsize : 0 < size)
    (hmapped : t.mapped address = true) : (isMapped address size t).1 = true := by
  obtain ⟨hfails, hcount, -⟩ := h t.clock (Nat.le_refl _)
  have hpos : 0 < t.mappedCount address (min size 64) := by
    unfold Target.mappedCount
    obtain ⟨k, hk⟩ : ∃ k, min size 64 = k + 1 := ⟨min size 64 - 1, by omega⟩
    rw [hk, List.range_succ_eq_map, List.takeWhile_cons, Nat.add_zero, hmapped]
    simp
  obtain ⟨k, hk⟩ : ∃ k, t.mappedCount address (min size 64) = k + 1 :=
    ⟨t.mappedCount address (min size 64) - 1, by omega⟩
  obtain ⟨b, bs, hread⟩ : ∃ b bs, (read address (min size 64) t).1 = .ok (b :: bs) := by
    simp only [read, hfails, Bool.false_eq_true, if_false, Reply.limit, hcount,
      Option.elim_none, hk, slice, List.range_succ_eq_map, List.map_cons]
    exact ⟨_, _, rfl⟩
  rw [isMapped, bind_apply, hread]
  rfl

theorem withoutUnmapped_eq_self {saved : DisableInfo} {t : Target} (h : t.Obliging)
    (horiginals : ∀ patch ∈ saved.originals, patch.bytes ≠ [] → t.mapped patch.address = true)
    (hprotections : ∀ p ∈ saved.protections, 0 < p.size ∧ t.mapped p.address = true) :
    (withoutUnmapped saved t).1 = saved := by
  have hlook : ∀ patch : OriginalBytes, Moves Target.Looked
      (if patch.bytes.isEmpty || overflows patch.address patch.bytes.length then pure true
        else isMapped patch.address patch.bytes.length : Op Bool) :=
    fun _ => Moves.ite (Moves.pure frame_looked _) (looked_isMapped _ _)
  have hkept : ∀ patch ∈ saved.originals, ∀ n, t.clock ≤ n →
      ((if patch.bytes.isEmpty || overflows patch.address patch.bytes.length then pure true
        else isMapped patch.address patch.bytes.length : Op Bool) (t.after n)).1 = true := by
    intro patch hpatch n hn
    split
    · rfl
    · rename_i hne
      rw [Bool.or_eq_true, not_or, List.isEmpty_iff] at hne
      exact isMapped_eq_true (h.after hn) (List.length_pos_iff.mpr hne.1)
        (horiginals patch hpatch hne.1)
  change ((if (saved.image.all fun image => image.pid == t.pid) = true
    then _ else pure saved : Op DisableInfo) t).1 = saved
  split
  · obtain ⟨n, hn, hnext⟩ := moves_keep frame_looked hlook saved.originals t
    have hprotected : ∀ p ∈ saved.protections, ∀ k, (t.after n).clock ≤ k →
        (isMapped p.address p.size ((t.after n).after k)).1 = true :=
      fun p hp k hk => isMapped_eq_true ((h.after hn).after hk) (hprotections p hp).1
        (hprotections p hp).2
    change ({ saved with
      originals := (keep _ saved.originals t).1
      protections := (keep _ saved.protections (keep _ saved.originals t).2).1 } : DisableInfo) = _
    rw [hnext, keep_eq_self hlook hkept,
      keep_eq_self (f := fun p : Protection => isMapped p.address p.size)
        (fun p => looked_isMapped p.address p.size) hprotected]
  · rfl

theorem storageBusy_eq_none {t : Target} (h : t.Obliging) (flag : Bool) (address size : ℕ)
    (what : String) : (storageBusy flag address size what t).1 = none := by
  unfold storageBusy
  split
  · rfl
  · change (if (t.reply t.clock).busy then some _ else none) = none
    rw [(h t.clock (Nat.le_refl _)).busy]
    rfl

theorem threadConflict_eq_none {released : ℕ → Bool} {info : DisableInfo} {t : Target}
    (h : t.Obliging) : (threadConflict released info t).1 = none := by
  have hlook : ∀ {α : Type} (f : α → Bool × ℕ × ℕ × String) (xs : List α), Moves Target.Looked
      (firstSome (fun x => storageBusy (f x).1 (f x).2.1 (f x).2.2.1 (f x).2.2.2) xs) :=
    fun f xs => moves_firstSome frame_looked (fun _ => looked_storageBusy _ _ _ _) xs
  have hnone : ∀ {α : Type} (f : α → Bool × ℕ × ℕ × String) (xs : List α) (n : ℕ),
      t.clock ≤ n → (firstSome (fun x => storageBusy (f x).1 (f x).2.1 (f x).2.2.1 (f x).2.2.2) xs
        (t.after n)).1 = none :=
    fun f xs n hn => firstSome_eq_none (fun _ => looked_storageBusy _ _ _ _)
      fun x _ k hk => storageBusy_eq_none ((h.after hn).after hk) _ _ _ _
  refine orElse_eq_none (hlook (fun a => (_, a.address, a.size, _)) _)
    (hnone (fun a => (_, a.address, a.size, _)) _ t.clock (Nat.le_refl _)) fun n hn => ?_
  refine orElse_eq_none (hlook (fun p => (_, p.address, p.bytes.length, _)) _)
    (hnone (fun p => (_, p.address, p.bytes.length, _)) _ n hn) fun k hk => ?_
  exact hnone (fun p => (_, p.address, p.size, _)) _ k (Nat.le_trans hn hk)

/-! ### Pieces of a range -/

theorem mem_pieces {size : ℕ} {piece : ℕ × ℕ} (h : piece ∈ pieces size) :
    piece.1 + piece.2 ≤ size := by
  unfold pieces at h
  obtain ⟨i, hi, rfl⟩ := List.mem_map.mp h
  rw [List.mem_range] at hi
  dsimp only
  omega

theorem exists_piece {size offset : ℕ} (h : offset < size) :
    ∃ piece ∈ pieces size, piece.1 ≤ offset ∧ offset < piece.1 + piece.2 := by
  refine ⟨_, List.mem_map.mpr ⟨offset / 65536, ?_, rfl⟩, ?_, ?_⟩
  · rw [List.mem_range]
    omega
  · dsimp only
    omega
  · dsimp only
    omega

/-! ### Code in one of its saved states -/

theorem getD_slice (m : ℕ → UInt8) (address : ℕ) {n i : ℕ} (h : i < n) :
    (slice m address n).getD i 0 = m (address + i) := by
  rw [List.getD_eq_getElem?_getD, slice, List.getElem?_map, List.getElem?_range h]
  rfl

theorem codeOwnershipConflict_eq_none {released : ℕ → Bool} {originals : List OriginalBytes}
    {t : Target} (h : t.Obliging)
    (hmapped : ∀ patch ∈ originals, patch.verifyOwnership = true →
      ∀ a, patch.address ≤ a → a < patch.address + patch.bytes.length → t.mapped a = true)
    (haccepted : ∀ patch ∈ originals, patch.verifyOwnership = true →
      ∀ a, patch.address ≤ a → a < patch.address + patch.bytes.length →
        acceptedAt released originals a (t.mem a) = true) :
    (codeOwnershipConflict released originals t).1 = none := by
  have hlook : ∀ patch : OriginalBytes, Moves Target.Looked (firstSome (fun piece =>
      pieceConflict released originals (patch.address + piece.1) piece.2)
        (pieces patch.bytes.length)) :=
    fun patch => moves_firstSome frame_looked (fun _ => looked_pieceConflict _ _ _ _) _
  refine firstSome_eq_none (fun patch => Moves.ite (Moves.pure frame_looked _) (hlook patch)) ?_
  intro patch hpatch n hn
  split
  · rfl
  · rename_i hverify
    have hv : patch.verifyOwnership = true := by
      by_contra hne
      exact hverify (by rw [Bool.eq_false_of_not_eq_true hne]; rfl)
    refine firstSome_eq_none (fun _ => looked_pieceConflict _ _ _ _) ?_
    intro piece hpiece k hk
    have hsize := mem_pieces hpiece
    have hinside : ∀ a, patch.address + piece.1 ≤ a → a < patch.address + piece.1 + piece.2 →
        patch.address ≤ a ∧ a < patch.address + patch.bytes.length := by
      intro a ha ha'
      omega
    have hread := @read_ok ((t.after n).after k) ((h.after hn).after hk)
      (patch.address + piece.1) piece.2 fun a ha ha' =>
        hmapped patch hpatch hv a (hinside a ha ha').1 (hinside a ha ha').2
    rw [pieceConflict, bind_apply, hread]
    dsimp only
    rw [if_neg (by simp)]
    change Option.map _ (List.find? _ _) = none
    rw [Option.map_eq_none_iff, List.find?_eq_none]
    intro i hi
    rw [List.mem_range] at hi
    rw [getD_slice _ _ hi, Bool.not_eq_true', Bool.not_eq_false]
    exact haccepted patch hpatch hv _ (by omega) (by omega)

/-! ### Joined ranges -/

def Inside (ranges : List (ℕ × ℕ)) (a : ℕ) : Prop :=
  ∃ r ∈ ranges, r.1 ≤ a ∧ a ≤ r.2

theorem inside_cons {r : ℕ × ℕ} {ranges : List (ℕ × ℕ)} {a : ℕ} :
    Inside (r :: ranges) a ↔ (r.1 ≤ a ∧ a ≤ r.2) ∨ Inside ranges a := by
  simp [Inside]

theorem inside_mergeFrom {current : ℕ × ℕ} {ranges : List (ℕ × ℕ)}
    (hsorted : (current :: ranges).Pairwise fun r s => r.1 ≤ s.1)
    (hvalid : ∀ r ∈ current :: ranges, r.1 ≤ r.2) (a : ℕ) :
    Inside (mergeFrom current ranges) a ↔ Inside (current :: ranges) a := by
  induction ranges generalizing current with
  | nil => rfl
  | cons r ranges ih =>
    rw [List.pairwise_cons, List.pairwise_cons] at hsorted
    obtain ⟨hcurrent, hr, hrest⟩ := hsorted
    have hle := hcurrent r List.mem_cons_self
    have hcv := hvalid current List.mem_cons_self
    have hrv := hvalid r (List.mem_cons_of_mem _ List.mem_cons_self)
    have htail : ∀ s ∈ ranges, s.1 ≤ s.2 :=
      fun s hs => hvalid s (List.mem_cons_of_mem _ (List.mem_cons_of_mem _ hs))
    unfold mergeFrom
    split
    · rename_i htouch
      rw [ih, inside_cons, inside_cons, inside_cons, ← or_assoc]
      · refine or_congr_left ?_
        dsimp only
        omega
      · refine List.pairwise_cons.mpr ⟨fun s hs => ?_, hrest⟩
        exact hcurrent s (List.mem_cons_of_mem _ hs)
      · intro s hs
        rcases List.mem_cons.mp hs with rfl | hs
        · dsimp only
          omega
        · exact htail s hs
    · rw [inside_cons, inside_cons, ih (List.pairwise_cons.mpr ⟨hr, hrest⟩)
        fun s hs => hvalid s (List.mem_cons_of_mem _ hs)]

theorem mergeFrom_valid {current : ℕ × ℕ} {ranges : List (ℕ × ℕ)}
    (hvalid : ∀ r ∈ current :: ranges, r.1 ≤ r.2) :
    ∀ r ∈ mergeFrom current ranges, r.1 ≤ r.2 := by
  induction ranges generalizing current with
  | nil => exact hvalid
  | cons r ranges ih =>
    have hcv := hvalid current List.mem_cons_self
    have htail : ∀ s ∈ ranges, s.1 ≤ s.2 :=
      fun s hs => hvalid s (List.mem_cons_of_mem _ (List.mem_cons_of_mem _ hs))
    unfold mergeFrom
    split
    · refine ih fun s hs => ?_
      rcases List.mem_cons.mp hs with rfl | hs
      · dsimp only
        omega
      · exact htail s hs
    · intro s hs
      rcases List.mem_cons.mp hs with rfl | hs
      · exact hcv
      · exact ih (fun s hs => hvalid s (List.mem_cons_of_mem _ hs)) s hs

instance : Std.Total pairLe := ⟨fun r s => by unfold pairLe; omega⟩

instance : IsTrans (ℕ × ℕ) pairLe := ⟨fun r s u => by unfold pairLe; omega⟩

theorem inside_mergeRanges_sort {ranges : List (ℕ × ℕ)} (hvalid : ∀ r ∈ ranges, r.1 ≤ r.2) :
    (∀ a, Inside (mergeRanges (ranges.insertionSort pairLe)) a ↔ Inside ranges a) ∧
      ∀ r ∈ mergeRanges (ranges.insertionSort pairLe), r.1 ≤ r.2 := by
  have hperm : ∀ a, Inside (ranges.insertionSort pairLe) a ↔ Inside ranges a := by
    intro a
    unfold Inside
    simp only [List.mem_insertionSort]
  have hsorted : (ranges.insertionSort pairLe).Pairwise fun r s => r.1 ≤ s.1 := by
    refine (List.pairwise_insertionSort pairLe ranges).imp fun {r s} h => ?_
    unfold pairLe at h
    omega
  have hvalid' : ∀ r ∈ ranges.insertionSort pairLe, r.1 ≤ r.2 :=
    fun r hr => hvalid r ((List.mem_insertionSort pairLe).mp hr)
  cases hlist : ranges.insertionSort pairLe with
  | nil =>
    rw [hlist] at hperm
    exact ⟨hperm, fun r hr => absurd hr List.not_mem_nil⟩
  | cons r rest =>
    rw [hlist] at hperm hsorted hvalid'
    exact ⟨fun a => (inside_mergeFrom hsorted hvalid' a).trans (hperm a), mergeFrom_valid hvalid'⟩

/-! ### The saved bytes are in place -/

/-- Saved patches that can be restored: none is released, and all their bytes are mapped. -/
structure Restorable (released : ℕ → Bool) (originals : List OriginalBytes) (t : Target) :
    Prop where
  unreleased : ∀ patch ∈ originals, recordReleased released patch.allocationReleased = false
  mapped : ∀ patch ∈ originals, ∀ a, patch.address ≤ a →
    a < patch.address + patch.bytes.length → t.mapped a = true

/-- What the saved patches restore at an address. -/
def savedAt (originals : List OriginalBytes) (a : ℕ) : Option UInt8 :=
  firstAt (originals.map OriginalBytes.range) a

theorem savedAt_isSome {originals : List OriginalBytes} {a : ℕ} :
    (savedAt originals a).isSome ↔
      ∃ patch ∈ originals, patch.address ≤ a ∧ a < patch.address + patch.bytes.length := by
  unfold savedAt
  rw [firstAt_isSome]
  constructor
  · rintro ⟨r, hr, hbyte⟩
    obtain ⟨patch, hpatch, rfl⟩ := List.mem_map.mp hr
    exact ⟨patch, hpatch, byteAt_isSome.mp hbyte⟩
  · rintro ⟨patch, hpatch, ha⟩
    exact ⟨patch.range, List.mem_map_of_mem hpatch, byteAt_isSome.mpr ha⟩

section restorable

variable {released : ℕ → Bool} {originals : List OriginalBytes} {t : Target}

theorem Restorable.after (h : Restorable released originals t) (n : ℕ) :
    Restorable released originals (t.after n) :=
  ⟨h.unreleased, h.mapped⟩

theorem Restorable.filter_eq (h : Restorable released originals t) :
    (originals.filter fun patch =>
      !patch.bytes.isEmpty && !recordReleased released patch.allocationReleased) =
      originals.filter fun patch => !patch.bytes.isEmpty := by
  refine List.filter_congr fun patch hpatch => ?_
  rw [h.unreleased patch hpatch, Bool.not_false, Bool.and_true]

theorem firstAt_filter_nonempty (originals : List OriginalBytes) (a : ℕ) :
    firstAt ((originals.filter fun patch => !patch.bytes.isEmpty).map OriginalBytes.range) a =
      savedAt originals a := by
  unfold savedAt
  induction originals with
  | nil => rfl
  | cons patch originals ih =>
    rw [List.filter_cons, List.map_cons, firstAt_cons]
    split
    · rw [List.map_cons, firstAt_cons, ih]
    · rename_i hempty
      rw [Bool.not_eq_true', Bool.not_eq_false, List.isEmpty_iff] at hempty
      rw [ih, OriginalBytes.range, hempty, byteAt_nil, Option.none_or]

theorem Restorable.restoredBytes_eq (h : Restorable released originals t) (address count : ℕ) :
    restoredBytes released originals address count =
      slice (fun a => (savedAt originals a).getD 0) address count := by
  unfold restoredBytes
  rw [h.filter_eq]
  have hbyte : ∀ a, byteAt address (((originals.filter fun patch => !patch.bytes.isEmpty).map
      OriginalBytes.range).reverse.foldl (layBytes address) (List.replicate count 0)) a =
      byteAt address (slice (fun a => (savedAt originals a).getD 0) address count) a := by
    intro a
    rw [byteAt_foldl_layBytes, List.reverse_reverse, firstAt_filter_nonempty, byteAt_slice]
    by_cases ha : address ≤ a ∧ a < address + count
    · rw [if_pos ha, byteAt, if_pos ha.1, List.getElem?_replicate, if_pos (by omega)]
      rfl
    · rw [if_neg ha, byteAt_eq_none.mpr (by rw [List.length_replicate]; omega)]
      rfl
  refine List.ext_getElem? fun i => ?_
  have hi := hbyte (address + i)
  unfold byteAt at hi
  rw [if_pos (Nat.le_add_right _ _), if_pos (Nat.le_add_right _ _),
    Nat.add_sub_cancel_left] at hi
  exact hi

theorem Restorable.inside_iff (h : Restorable released originals t) :
    (∀ a, Inside (restoredRanges released originals) a ↔ (savedAt originals a).isSome) ∧
      ∀ r ∈ restoredRanges released originals, r.1 ≤ r.2 := by
  unfold restoredRanges
  rw [h.filter_eq]
  have hranges : ∀ r ∈ ((originals.filter fun patch => !patch.bytes.isEmpty).map fun patch =>
      (patch.address, patch.address + patch.bytes.length - 1)), r.1 ≤ r.2 := by
    intro r hr
    obtain ⟨patch, hpatch, rfl⟩ := List.mem_map.mp hr
    have hne := (List.mem_filter.mp hpatch).2
    rw [Bool.not_eq_true', List.isEmpty_eq_false_iff] at hne
    have := List.length_pos_iff.mpr hne
    dsimp only
    omega
  obtain ⟨hinside, hvalid⟩ := inside_mergeRanges_sort hranges
  refine ⟨fun a => (hinside a).trans ?_, hvalid⟩
  rw [savedAt_isSome]
  unfold Inside
  constructor
  · rintro ⟨r, hr, ha⟩
    obtain ⟨patch, hpatch, rfl⟩ := List.mem_map.mp hr
    have hne := (List.mem_filter.mp hpatch).2
    rw [Bool.not_eq_true', List.isEmpty_eq_false_iff] at hne
    have := List.length_pos_iff.mpr hne
    dsimp only at ha
    exact ⟨patch, (List.mem_filter.mp hpatch).1, by omega, by omega⟩
  · rintro ⟨patch, hpatch, ha⟩
    refine ⟨_, List.mem_map_of_mem (List.mem_filter.mpr ⟨hpatch, ?_⟩), ?_⟩
    · rw [Bool.not_eq_true', List.isEmpty_eq_false_iff, ← List.length_pos_iff]
      omega
    · dsimp only
      omega

theorem Restorable.mapped_of_saved (h : Restorable released originals t) {a : ℕ}
    (ha : (savedAt originals a).isSome) : t.mapped a = true := by
  obtain ⟨patch, hpatch, hrange⟩ := savedAt_isSome.mp ha
  exact h.mapped patch hpatch a hrange.1 hrange.2

theorem slice_eq_iff {m m' : ℕ → UInt8} {address n : ℕ} :
    slice m address n = slice m' address n ↔ ∀ a, address ≤ a → a < address + n → m a = m' a := by
  unfold slice
  rw [List.map_inj_left]
  constructor
  · intro h a ha ha'
    have := h (a - address) (List.mem_range.mpr (by omega))
    rwa [show address + (a - address) = a by omega] at this
  · intro h i hi
    exact h _ (by omega) (by rw [List.mem_range] at hi; omega)

theorem pieceMismatch_eq_none (h : Restorable released originals t) (ht : t.Obliging)
    {address count : ℕ}
    (hsaved : ∀ a, address ≤ a → a < address + count → (savedAt originals a).isSome) :
    (pieceMismatch released originals address count t).1 = none ↔
      ∀ a, address ≤ a → a < address + count → savedAt originals a = some (t.mem a) := by
  have hread := @read_ok t ht address count fun a ha ha' => h.mapped_of_saved (hsaved a ha ha')
  rw [pieceMismatch, bind_apply, hread]
  dsimp only
  rw [h.restoredBytes_eq]
  change (if _ then none else some address) = none ↔ _
  rw [ite_eq_left_iff]
  simp only [reduceCtorEq, imp_false, not_not, slice_eq_iff]
  refine forall_congr' fun a => forall_congr' fun ha => forall_congr' fun ha' => ?_
  obtain ⟨b, hb⟩ := Option.isSome_iff_exists.mp (hsaved a ha ha')
  rw [hb, Option.getD_some, Option.some_inj]
  exact eq_comm

theorem rangeMismatch_eq_none (h : Restorable released originals t) (ht : t.Obliging)
    {range : ℕ × ℕ} (hsaved : ∀ a, range.1 ≤ a → a ≤ range.2 → (savedAt originals a).isSome) :
    (rangeMismatch released originals range t).1 = none ↔
      ∀ a, range.1 ≤ a → a ≤ range.2 → savedAt originals a = some (t.mem a) := by
  have hpiece : ∀ piece ∈ pieces (range.2 + 1 - range.1), ∀ a, range.1 + piece.1 ≤ a →
      a < range.1 + piece.1 + piece.2 → (savedAt originals a).isSome := by
    intro piece hp a ha ha'
    have hsize := mem_pieces hp
    exact hsaved a (by omega) (by omega)
  constructor
  · intro hnone a ha ha'
    obtain ⟨piece, hp, hpa, hap⟩ := exists_piece (show a - range.1 < range.2 + 1 - range.1 by omega)
    obtain ⟨n, hn, hmatch⟩ := of_firstSome_eq_none
      (fun _ => looked_pieceMismatch _ _ _ _) hnone piece hp
    exact (pieceMismatch_eq_none (h.after n) (ht.after hn) (hpiece piece hp)).mp hmatch a
      (by omega) (by omega)
  · intro hplace
    refine firstSome_eq_none (fun _ => looked_pieceMismatch _ _ _ _) fun piece hp n hn => ?_
    refine (pieceMismatch_eq_none (h.after n) (ht.after hn) (hpiece piece hp)).mpr fun a ha ha' => ?_
    have hsize := mem_pieces hp
    exact hplace a (by omega) (by omega)

theorem firstMismatch_eq_none (h : Restorable released originals t) (ht : t.Obliging) :
    (firstMismatch released originals t).1 = none ↔
      ∀ a b, savedAt originals a = some b → t.mem a = b := by
  obtain ⟨hinside, hvalid⟩ := h.inside_iff
  have hrange : ∀ r ∈ restoredRanges released originals, ∀ a, r.1 ≤ a → a ≤ r.2 →
      (savedAt originals a).isSome :=
    fun r hr a ha ha' => (hinside a).mp ⟨r, hr, ha, ha'⟩
  constructor
  · intro hnone a b hab
    obtain ⟨r, hr, hra, har⟩ := (hinside a).mpr (by rw [hab]; rfl)
    obtain ⟨n, hn, hmatch⟩ := of_firstSome_eq_none (looked_rangeMismatch released originals)
      hnone r hr
    have heq := (rangeMismatch_eq_none (h.after n) (ht.after hn) (hrange r hr)).mp hmatch a hra har
    rw [hab] at heq
    exact (Option.some_inj.mp heq).symm
  · intro hplace
    refine firstSome_eq_none (looked_rangeMismatch released originals) fun r hr n hn => ?_
    refine (rangeMismatch_eq_none (h.after n) (ht.after hn) (hrange r hr)).mpr fun a ha ha' => ?_
    obtain ⟨b, hb⟩ := Option.isSome_iff_exists.mp (hrange r hr a ha ha')
    rw [hb]
    exact congrArg some (hplace a b hb).symm

/-! ### Writing the saved bytes back -/

/-- The target after the writes of an undo. -/
def Target.written (t : Target) (n : ℕ) (m : ℕ → UInt8) : Target :=
  { t.after n with mem := m }

theorem restorePatch_ok (h : t.Obliging) {patch : OriginalBytes}
    (hreleased : recordReleased released patch.allocationReleased = false)
    (hmapped : ∀ a, patch.address ≤ a → a < patch.address + patch.bytes.length →
      t.mapped a = true) :
    restorePatch released patch t =
      ("", t.written (t.clock + 2) (lay t.mem patch.address patch.bytes)) := by
  have hwrite := @write_ok t.tick (h.after (Nat.le_succ _)) patch.address patch.bytes hmapped
  unfold restorePatch
  rw [hreleased]
  simp only [Bool.false_eq_true, if_false]
  rw [bind_apply]
  change (write patch.address patch.bytes >>= _) t.tick = _
  rw [bind_apply, hwrite]
  dsimp only
  rw [if_pos rfl]
  rfl

theorem restoreAll_ok (h : t.Obliging) (hr : Restorable released originals t) :
    ∃ n, t.clock ≤ n ∧ collectErrors (restorePatch released) originals t =
      ("", t.written n (layAll t.mem (originals.map OriginalBytes.range))) := by
  induction originals generalizing t with
  | nil => exact ⟨t.clock, Nat.le_refl _, rfl⟩
  | cons patch originals ih =>
    have hone := restorePatch_ok h (hr.unreleased patch List.mem_cons_self)
      (hr.mapped patch List.mem_cons_self)
    obtain ⟨n, hn, hrest⟩ := @ih
      (t.written (t.clock + 2) (lay t.mem patch.address patch.bytes))
      (h.after (Nat.le_add_right _ _))
      ⟨fun p hp => hr.unreleased p (List.mem_cons_of_mem _ hp),
        fun p hp => hr.mapped p (List.mem_cons_of_mem _ hp)⟩
    refine ⟨n, Nat.le_trans (Nat.le_add_right _ 2) hn, ?_⟩
    change ((addError (restorePatch released patch t).1
      (collectErrors (restorePatch released) originals (restorePatch released patch t).2).1),
      (collectErrors (restorePatch released) originals (restorePatch released patch t).2).2) = _
    rw [hone]
    dsimp only
    rw [hrest]
    rfl

def restoredMem (originals : List OriginalBytes) (m : ℕ → UInt8) : ℕ → UInt8 :=
  fun a => (savedAt originals a).getD (m a)

/-- The undo's check, writes and check: each byte gets the original of the earliest patch over it. -/
theorem restoreBytes_ok (h : t.Obliging) (hr : Restorable released originals t) :
    ∃ n, t.clock ≤ n ∧ restoreBytes released originals t =
      ("", t.written n (restoredMem originals t.mem)) := by
  obtain ⟨n, hn, hlook⟩ := looked_firstMismatch released originals t
  unfold restoreBytes
  rw [bind_apply]
  cases hfound : (firstMismatch released originals t).1 with
  | none =>
    have hplace := (firstMismatch_eq_none hr h).mp hfound
    have hmem : restoredMem originals t.mem = t.mem := by
      funext a
      unfold restoredMem
      cases hsaved : savedAt originals a with
      | none => rfl
      | some b => exact (hplace a b hsaved).symm
    refine ⟨n, hn, ?_⟩
    rw [hlook, hmem]
    rfl
  | some _ =>
    rw [hlook]
    obtain ⟨k, hk, hwritten⟩ := @restoreAll_ok released originals.reverse (t.after n) (h.after hn)
      ⟨fun p hp => hr.unreleased p (List.mem_reverse.mp hp),
        fun p hp => hr.mapped p (List.mem_reverse.mp hp)⟩
    have hmem : layAll t.mem (originals.reverse.map OriginalBytes.range) =
        restoredMem originals t.mem := by
      funext a
      rw [layAll_apply, ← List.map_reverse, List.reverse_reverse]
      rfl
    have hwritten' : collectErrors (restorePatch released) originals.reverse (t.after n) =
        ("", t.written k (restoredMem originals t.mem)) := by
      rw [hwritten, ← hmem]
      rfl
    have hobliging : (t.written k (restoredMem originals t.mem)).Obliging :=
      h.after (Nat.le_trans hn hk)
    have hrestorable : Restorable released originals
        (t.written k (restoredMem originals t.mem)) := ⟨hr.unreleased, hr.mapped⟩
    obtain ⟨j, hj, hlook'⟩ := looked_firstMismatch released originals
      (t.written k (restoredMem originals t.mem))
    have hnone : (firstMismatch released originals
        (t.written k (restoredMem originals t.mem))).1 = none := by
      rw [firstMismatch_eq_none hrestorable hobliging]
      intro a b hab
      change (savedAt originals a).getD _ = b
      rw [hab]
      rfl
    refine ⟨j, Nat.le_trans hn (Nat.le_trans hk hj), ?_⟩
    dsimp only
    rw [bind_apply, hwritten', bind_apply, hnone, hlook']
    rfl

end restorable

/-! ### Page protections -/

/-- The saved protection of a page: the one of the earliest change to it. -/
def protectedAt (t : Target) (protections : List Protection) (q : ℕ) : Option MemProt :=
  protections.findSome? fun p => if t.covers p.address p.size q then some p.protection else none

theorem protectedAt_append (t : Target) (ps qs : List Protection) (q : ℕ) :
    protectedAt t (ps ++ qs) q = (protectedAt t ps q).or (protectedAt t qs q) := by
  unfold protectedAt
  exact List.findSome?_append

def restoredPages (t : Target) (protections : List Protection) : ℕ → Option MemProt :=
  fun q => (protectedAt t protections q).elim (t.pages q) fun protection =>
    (t.pages q).map fun _ => protection

theorem restoreProtection_ok {released : ℕ → Bool} {t : Target} (h : t.Obliging) {p : Protection}
    (hreleased : recordReleased released p.allocationReleased = false) :
    restoreProtection released p t =
      ("", { t.tick with
        pages := fun q => if t.covers p.address p.size q then
          (t.pages q).map fun _ => p.protection else t.pages q }) := by
  obtain ⟨hfails, -, -⟩ := h t.clock (Nat.le_refl _)
  have hprotect : protect p.address p.size p.protection t =
      (.ok (), { t.tick with
        pages := fun q => if t.covers p.address p.size q then
          (t.pages q).map fun _ => p.protection else t.pages q }) := by
    unfold protect
    simp only [hfails, Bool.not_false, Bool.true_or, Bool.and_true, Bool.false_eq_true, if_false]
  unfold restoreProtection
  rw [hreleased]
  simp only [Bool.false_eq_true, if_false]
  rw [bind_apply, hprotect]
  rfl

theorem restoreProtections_ok {released : ℕ → Bool} {protections : List Protection} {t : Target}
    (h : t.Obliging)
    (hreleased : ∀ p ∈ protections, recordReleased released p.allocationReleased = false) :
    ∃ n, t.clock ≤ n ∧ collectErrors (restoreProtection released) protections.reverse t =
      ("", { t.after n with pages := restoredPages t protections }) := by
  induction protections using List.reverseRecOn generalizing t with
  | nil => exact ⟨t.clock, Nat.le_refl _, rfl⟩
  | append_singleton protections p ih =>
    have hone := @restoreProtection_ok released t h p (hreleased p (by simp))
    obtain ⟨n, hn, hrest⟩ := @ih { t.tick with
        pages := fun q => if t.covers p.address p.size q then
          (t.pages q).map fun _ => p.protection else t.pages q }
      (h.after (Nat.le_succ _)) fun q hq => hreleased q (List.mem_append_left _ hq)
    refine ⟨n, Nat.le_trans (Nat.le_succ _) hn, ?_⟩
    rw [List.reverse_append, List.reverse_singleton, List.singleton_append, collectErrors,
      bind_apply, hone]
    dsimp only
    rw [bind_apply, hrest]
    have hpages : restoredPages { t.tick with
        pages := fun q => if t.covers p.address p.size q then
          (t.pages q).map fun _ => p.protection else t.pages q } protections =
        restoredPages t (protections ++ [p]) := by
      funext q
      unfold restoredPages
      rw [protectedAt_append]
      change (protectedAt t protections q).elim _ _ = _
      cases protectedAt t protections q with
      | some protection =>
        dsimp only [Option.elim_some, Option.some_or]
        split
        · rw [Option.map_map]
          rfl
        · rfl
      | none =>
        rw [Option.none_or, Option.elim_none, protectedAt, List.findSome?_singleton]
        by_cases hc : t.covers p.address p.size q = true
        · simp only [hc, if_true, Option.elim_some]
        · simp only [hc, Bool.false_eq_true, if_false, Option.elim_none]
    rw [hpages]
    rfl

/-! ### The whole undo -/

theorem freeAllocs_ok {allocs : List AllocEntry} {w : World} (h : w.target.Obliging) :
    (freeAllocs allocs w).1 = ([], "") := by
  induction allocs generalizing w with
  | nil => rfl
  | cons a allocs ih =>
    unfold freeAllocs
    split
    · exact ih h
    · obtain ⟨hfails, -, -⟩ := h w.target.clock (Nat.le_refl _)
      have hcall : (w.call (free a.address a.size)).1 = .ok () := by
        unfold World.call free
        simp only [hfails, Bool.false_eq_true, if_false]
      have hnext : (w.call (free a.address a.size)).2.target.Obliging := by
        unfold World.call free
        simp only [hfails, Bool.false_eq_true, if_false]
        exact h.after (Nat.le_succ _)
      generalize w.call (free a.address a.size) = result at hcall hnext
      obtain ⟨freed, w₁⟩ := result
      cases hcall
      exact ih hnext

/-- The saved patches with what the undo record took over from older scripts. -/
def effective (w : World) (owner : ℕ) (saved : DisableInfo) : List OriginalBytes :=
  (w.owners owner).restoreOverrides.foldl overrideOriginals saved.originals

/-- An undo that nothing stands in the way of. -/
structure Ready (saved : DisableInfo) (owner : ℕ) (w : World) : Prop where
  obliging : w.target.Obliging
  ownership : saved.ownership = some owner
  opened : (w.owners owner).complete = false
  image : ∀ image, saved.image = some image →
    image.pid = w.target.pid ∧ w.target.check image = .live
  mapped : ∀ patch ∈ saved.originals, patch.bytes ≠ [] → w.target.mapped patch.address = true
  fits : ∀ patch ∈ effective w owner saved, overflows patch.address patch.bytes.length = false
  verified : ∀ patch ∈ effective w owner saved, patch.verifyOwnership = true →
    ∀ a, patch.address ≤ a → a < patch.address + patch.bytes.length →
      w.target.mapped a = true ∧
        acceptedAt w.released (effective w owner saved) a (w.target.mem a) = true
  protections : ∀ p ∈ saved.protections, 0 < p.size ∧ w.target.mapped p.address = true ∧
    recordReleased w.released p.allocationReleased = false
  restorable : Restorable w.released
    (planHandovers w.dropComplete { saved with originals := effective w owner saved }).2 w.target

def World.restored (w : World) (n : ℕ) (originals : List OriginalBytes)
    (protections : List Protection) : World :=
  { w.dropComplete with
    target := { w.target.after n with
      mem := restoredMem originals w.target.mem
      pages := restoredPages w.target protections } }

def World.after (w : World) (n : ℕ) : World :=
  { w with target := w.target.after n }

theorem World.call_looked {α : Type} (w : World) {m : Op α} (h : Moves Target.Looked m) :
    ∃ n, w.target.clock ≤ n ∧ w.call m = ((m w.target).1, w.after n) := by
  obtain ⟨n, hn, hnext⟩ := h w.target
  refine ⟨n, hn, ?_⟩
  unfold World.call World.after
  rw [hnext]

theorem planHandovers_after (w : World) (k : ℕ) (info : DisableInfo) :
    planHandovers (w.after k).dropComplete info = planHandovers w.dropComplete info := rfl

theorem cleanupRestore_ok {saved info : DisableInfo} {w : World} (h : w.target.Obliging)
    (hrestorable : Restorable w.released (planHandovers w.dropComplete info).2 w.target)
    (hprotections : ∀ p ∈ info.protections,
      recordReleased w.released p.allocationReleased = false) :
    ∃ n, w.target.clock ≤ n ∧ cleanupRestore saved info w = ({ success := true },
      (freeAllocs info.allocs (((planHandovers w.dropComplete info).1.foldl World.handOver
        (w.restored n (planHandovers w.dropComplete info).2 info.protections)).leave
          info.ownership)).2.complete info) := by
  obtain ⟨plan, hplan⟩ : ∃ plan, plan = planHandovers w.dropComplete info := ⟨_, rfl⟩
  rw [← hplan] at hrestorable ⊢
  obtain ⟨n, hn, hbytes⟩ := restoreBytes_ok h hrestorable
  obtain ⟨k, hk, hpages⟩ := @restoreProtections_ok w.released info.protections
    (w.target.written n (restoredMem plan.2 w.target.mem)) (h.after hn) hprotections
  refine ⟨k, Nat.le_trans hn hk, ?_⟩
  obtain ⟨w₁, hw₁⟩ : ∃ w₁ : World, w₁ = { w.dropComplete with
    target := w.target.written n (restoredMem plan.2 w.target.mem) } := ⟨_, rfl⟩
  have hreleased : w₁.released = w.released := by rw [hw₁]; rfl
  have hfirst : w.dropComplete.call (restoreBytes w.dropComplete.released plan.2) = ("", w₁) := by
    have hcall : restoreBytes w.dropComplete.released plan.2 w.dropComplete.target =
        ("", w.target.written n (restoredMem plan.2 w.target.mem)) := hbytes
    unfold World.call
    rw [hcall, hw₁]
  have hsecond : w₁.call
      (collectErrors (restoreProtection w.released) info.protections.reverse) =
      ("", w.restored k plan.2 info.protections) := by
    rw [hw₁]
    unfold World.call
    dsimp only
    rw [hpages]
    rfl
  have hfree : (freeAllocs info.allocs ((plan.1.foldl World.handOver
      (w.restored k plan.2 info.protections)).leave info.ownership)).1 = ([], "") := by
    refine freeAllocs_ok ?_
    have htarget : ((plan.1.foldl World.handOver
        (w.restored k plan.2 info.protections)).leave info.ownership).target =
        (w.restored k plan.2 info.protections).target := by
      change (plan.1.foldl World.handOver (w.restored k plan.2 info.protections)).target = _
      generalize w.restored k plan.2 info.protections = w₁
      induction plan.1 generalizing w₁ with
      | nil => rfl
      | cons handover handovers ih => exact ih (w₁.handOver handover)
    rw [htarget]
    exact h.after (Nat.le_trans hn hk)
  unfold cleanupRestore
  dsimp only
  rw [← hplan, hfirst]
  dsimp only
  rw [if_neg (by simp), hreleased, hsecond]
  dsimp only
  rw [if_neg (by simp), cleanupFree]
  rw [hfree]
  rfl

theorem refusal_eq_none {released : ℕ → Bool} {info : DisableInfo} {t : Target} (h : t.Obliging)
    (hfits : ∀ patch ∈ info.originals, overflows patch.address patch.bytes.length = false)
    (hverified : ∀ patch ∈ info.originals, patch.verifyOwnership = true →
      ∀ a, patch.address ≤ a → a < patch.address + patch.bytes.length →
        t.mapped a = true ∧ acceptedAt released info.originals a (t.mem a) = true) :
    (refusal released info t).1 = none := by
  refine orElse_eq_none (looked_threadConflict _ _) (threadConflict_eq_none h) fun n hn => ?_
  have hany : (info.originals.any fun patch => overflows patch.address patch.bytes.length) =
      false := by
    rw [List.any_eq_false]
    intro patch hpatch
    rw [hfits patch hpatch]
    decide
  rw [hany]
  exact codeOwnershipConflict_eq_none (h.after hn)
    (fun patch hpatch hv a ha ha' => (hverified patch hpatch hv a ha ha').1)
    fun patch hpatch hv a ha ha' => (hverified patch hpatch hv a ha ha').2

theorem cleanup_ok {saved : DisableInfo} {owner : ℕ} {w : World} (h : Ready saved owner w) :
    ∃ n, w.target.clock ≤ n ∧ cleanup saved w = ({ success := true },
      (freeAllocs saved.allocs
        (((planHandovers w.dropComplete
            { saved with originals := effective w owner saved }).1.foldl World.handOver
          (w.restored n (planHandovers w.dropComplete
            { saved with originals := effective w owner saved }).2 saved.protections)).leave
              (some owner))).2.complete saved) := by
  obtain ⟨info, hinfo⟩ : ∃ info : DisableInfo,
    info = { saved with originals := effective w owner saved } := ⟨_, rfl⟩
  rw [← hinfo]
  have hrecord : info.allocs = saved.allocs ∧ info.symbols = saved.symbols ∧
      info.protections = saved.protections ∧ info.image = saved.image ∧
      info.ownership = some owner := by
    rw [hinfo]
    exact ⟨rfl, rfl, rfl, rfl, h.ownership⟩
  obtain ⟨hallocs, hsymbols, hprotections, hinfoImage, hinfoOwner⟩ := hrecord
  have hunmapped := @withoutUnmapped_eq_self saved w.target h.obliging h.mapped
    fun p hp => ⟨(h.protections p hp).1, (h.protections p hp).2.1⟩
  obtain ⟨n, hn, hcall⟩ := w.call_looked (looked_withoutUnmapped saved)
  obtain ⟨k, hk, hlock⟩ := (w.after n).call_looked looked_tryLock
  have hlocked : (tryLock (w.after n).target).1 = true := by
    change (!((w.target.reply n).busy)) = true
    rw [(h.obliging n hn).busy]
    rfl
  have hnk : w.target.clock ≤ k := Nat.le_trans hn hk
  obtain ⟨j, hj, hrefusal⟩ := (w.after k).call_looked (looked_refusal w.released info)
  have hnone : (refusal w.released info (w.after k).target).1 = none := by
    rw [hinfo]
    exact refusal_eq_none (h.obliging.after hnk) h.fits h.verified
  have hkj : w.target.clock ≤ j := Nat.le_trans hnk hj
  obtain ⟨i, hi, hdone⟩ := @cleanupRestore_ok saved info (w.after j) (h.obliging.after hkj)
    (by rw [hinfo]; exact ⟨h.restorable.unreleased, h.restorable.mapped⟩)
    (by rw [hinfo]; exact fun p hp => (h.protections p hp).2.2)
  refine ⟨i, Nat.le_trans hkj hi, ?_⟩
  have hcheck : cleanupCheck saved info (w.after k) = cleanupRestore saved info (w.after j) := by
    unfold cleanupCheck
    have hreleased : (w.after k).released = w.released := rfl
    rw [hreleased, hrefusal, hnone]
    rfl
  have himage : cleanupImage saved info (w.after k) = cleanupCheck saved info (w.after k) := by
    unfold cleanupImage
    rw [hinfoImage]
    cases hsaved : saved.image with
    | none => rfl
    | some image =>
      obtain ⟨hpid, hlive⟩ := h.image image hsaved
      have hcheck : (w.after k).target.check image = .live := hlive
      dsimp only
      rw [if_neg (fun hne => hne hpid), hcheck]
  have hcleanup : cleanup saved w = cleanupImage saved info (w.after k) := by
    have hopen : (((w.after n).after k).owners owner).complete = false := h.opened
    unfold cleanup
    rw [hcall, hunmapped]
    dsimp only
    rw [hlock, hlocked]
    simp only [h.ownership, hopen, Bool.false_eq_true, if_false]
    rw [hinfo, h.ownership]
    rfl
  have hcomplete : ∀ w : World, w.complete info = w.complete saved := by
    intro w
    rw [World.complete, World.complete, hinfoOwner, hsymbols, h.ownership]
  rw [hcleanup, himage, hcheck, hdone, hcomplete, hallocs, hinfoOwner, hprotections]
  rfl

end CheatEngine.AutoAssembler
