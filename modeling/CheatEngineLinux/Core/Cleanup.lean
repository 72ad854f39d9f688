import CheatEngineLinux.Core.AutoAssembler

/-!
# What an undo can touch

Frames of `cleanup` and of the loops it is made of: which calls only look, which keep the mappings,
and what is left of the shared names once it succeeded.

* **PROVED `looked_refusal`, `looked_firstMismatch`**: all that an undo inspects, it leaves alone.
* **PROVED `cleanup_success`**: an undo that succeeds reached its frees with names, flags and
  mappings as they were, and freed every allocation it had not freed before.
-/

namespace CheatEngine.AutoAssembler

open ByteOverlay Stages

/-! ### Loops -/

section loops

variable {α β : Type} {R : Target → Target → Prop}

theorem moves_keep (hR : Frame R) {f : α → Op Bool} (hf : ∀ x, Moves R (f x)) (xs : List α) :
    Moves R (keep f xs) := by
  induction xs with
  | nil => exact Moves.pure hR _
  | cons x xs ih =>
    exact Moves.bind hR (hf x) fun kept => Moves.bind hR ih fun rest => Moves.pure hR _

theorem moves_firstSome (hR : Frame R) {f : α → Op (Option β)} (hf : ∀ x, Moves R (f x))
    (xs : List α) : Moves R (firstSome f xs) := by
  induction xs with
  | nil => exact Moves.pure hR _
  | cons x xs ih =>
    refine Moves.bind hR (hf x) fun found => ?_
    cases found with
    | none => exact ih
    | some y => exact Moves.pure hR _

theorem moves_orElse (hR : Frame R) {a b : Op (Option β)} (ha : Moves R a) (hb : Moves R b) :
    Moves R (orElse a b) := by
  refine Moves.bind hR ha fun found => ?_
  cases found with
  | none => exact hb
  | some y => exact Moves.pure hR _

theorem moves_collectErrors (hR : Frame R) {f : α → Op String} (hf : ∀ x, Moves R (f x))
    (xs : List α) : Moves R (collectErrors f xs) := by
  induction xs with
  | nil => exact Moves.pure hR _
  | cons x xs ih =>
    exact Moves.bind hR (hf x) fun error => Moves.bind hR ih fun rest => Moves.pure hR _

end loops

/-! ### Looking -/

theorem looked_isMapped (address size : ℕ) : Moves Target.Looked (isMapped address size) := by
  refine Moves.bind frame_looked (looked_read _ _) fun found => ?_
  have hregion : Moves Target.Looked (queryRegion address >>= fun region =>
      pure (region.any fun r => decide (r.base ≤ address) && decide (address - r.base < r.size)) :
        Op Bool) :=
    Moves.bind frame_looked (looked_queryRegion _) fun _ => Moves.pure frame_looked _
  match found with
  | .ok (_ :: _) => exact Moves.pure frame_looked _
  | .ok [] => exact hregion
  | .error _ => exact hregion

theorem looked_withoutUnmapped (saved : DisableInfo) :
    Moves Target.Looked (withoutUnmapped saved) := by
  refine Moves.bind frame_looked (fun t => frame_looked.refl t) fun t => ?_
  refine Moves.ite ?_ (Moves.pure frame_looked _)
  refine Moves.bind frame_looked (moves_keep frame_looked (fun patch => ?_) _) fun originals =>
    Moves.bind frame_looked (moves_keep frame_looked (fun p => looked_isMapped _ _) _)
      fun protections => Moves.pure frame_looked _
  exact Moves.ite (Moves.pure frame_looked _) (looked_isMapped _ _)

theorem looked_pieceConflict (released : ℕ → Bool) (originals : List OriginalBytes)
    (address count : ℕ) :
    Moves Target.Looked (pieceConflict released originals address count) := by
  refine Moves.bind frame_looked (looked_read _ _) fun found => ?_
  cases found with
  | error r => exact Moves.pure frame_looked _
  | ok actual => exact Moves.ite (Moves.pure frame_looked _) (Moves.pure frame_looked _)

theorem looked_codeOwnershipConflict (released : ℕ → Bool) (originals : List OriginalBytes) :
    Moves Target.Looked (codeOwnershipConflict released originals) :=
  moves_firstSome frame_looked (fun _ => Moves.ite (Moves.pure frame_looked _)
    (moves_firstSome frame_looked (fun _ => looked_pieceConflict _ _ _ _) _)) _

theorem looked_storageBusy (flag : Bool) (address size : ℕ) (what : String) :
    Moves Target.Looked (storageBusy flag address size what) :=
  Moves.ite (Moves.pure frame_looked _)
    (Moves.bind frame_looked (looked_threadStorageBusy _ _) fun _ => Moves.pure frame_looked _)

theorem looked_threadConflict (released : ℕ → Bool) (info : DisableInfo) :
    Moves Target.Looked (threadConflict released info) :=
  moves_orElse frame_looked (moves_firstSome frame_looked (fun _ => looked_storageBusy _ _ _ _) _)
    (moves_orElse frame_looked
      (moves_firstSome frame_looked (fun _ => looked_storageBusy _ _ _ _) _)
      (moves_firstSome frame_looked (fun _ => looked_storageBusy _ _ _ _) _))

theorem looked_refusal (released : ℕ → Bool) (info : DisableInfo) :
    Moves Target.Looked (refusal released info) :=
  moves_orElse frame_looked (looked_threadConflict _ _)
    (Moves.ite (Moves.pure frame_looked _) (looked_codeOwnershipConflict _ _))

theorem looked_pieceMismatch (released : ℕ → Bool) (originals : List OriginalBytes)
    (address count : ℕ) :
    Moves Target.Looked (pieceMismatch released originals address count) := by
  refine Moves.bind frame_looked (looked_read _ _) fun found => ?_
  cases found with
  | error r => exact Moves.pure frame_looked _
  | ok actual => exact Moves.pure frame_looked _

theorem looked_rangeMismatch (released : ℕ → Bool) (originals : List OriginalBytes)
    (range : ℕ × ℕ) : Moves Target.Looked (rangeMismatch released originals range) :=
  moves_firstSome frame_looked (fun _ => looked_pieceMismatch _ _ _ _) _

theorem looked_firstMismatch (released : ℕ → Bool) (originals : List OriginalBytes) :
    Moves Target.Looked (firstMismatch released originals) :=
  moves_firstSome frame_looked (looked_rangeMismatch released originals) _

/-! ### Restoring keeps the mappings -/

theorem steady_restorePatch (released : ℕ → Bool) (patch : OriginalBytes) :
    Moves Target.Steady (restorePatch released patch) := by
  refine Moves.ite (Moves.pure frame_steady _) ?_
  refine Moves.bind frame_steady (steady_of_looked (looked_queryRegion _)) fun _ => ?_
  refine Moves.bind frame_steady (steady_write _ _) fun written => ?_
  cases written with
  | error r => exact Moves.pure frame_steady _
  | ok n => exact Moves.pure frame_steady _

theorem steady_restoreBytes (released : ℕ → Bool) (originals : List OriginalBytes) :
    Moves Target.Steady (restoreBytes released originals) := by
  have hmismatch := steady_of_looked (looked_firstMismatch released originals)
  refine Moves.bind frame_steady hmismatch fun found => ?_
  cases found with
  | none => exact Moves.pure frame_steady _
  | some a =>
    refine Moves.bind frame_steady
      (moves_collectErrors frame_steady (steady_restorePatch released) _) fun error => ?_
    refine Moves.bind frame_steady hmismatch fun found => ?_
    cases found with
    | none => exact Moves.pure frame_steady _
    | some a => exact Moves.pure frame_steady _

theorem steady_restoreProtection (released : ℕ → Bool) (p : Protection) :
    Moves Target.Steady (restoreProtection released p) := by
  refine Moves.ite (Moves.pure frame_steady _) ?_
  refine Moves.bind frame_steady (steady_protect _ _ _) fun restored => ?_
  cases restored with
  | error r => exact Moves.pure frame_steady _
  | ok n => exact Moves.pure frame_steady _

/-! ### An undo that succeeds -/

/-- Names, flags and mappings are as they were. -/
structure World.Same (w w' : World) : Prop where
  tables : w'.tables = w.tables
  released : w'.released = w.released
  target : w.target.Steady w'.target

theorem frame_same : Frame World.Same where
  refl := fun w => ⟨rfl, rfl, frame_steady.refl w.target⟩
  trans := fun hab hbc => ⟨hbc.tables.trans hab.tables, hbc.released.trans hab.released,
    frame_steady.trans hab.target hbc.target⟩

theorem World.same_call {α : Type} (w : World) {m : Op α} (h : Moves Target.Steady m) :
    w.Same (w.call m).2 :=
  ⟨rfl, rfl, h w.target⟩

/-- The undo came to its frees and none of them failed. -/
def Freed (info : DisableInfo) (w w' : World) : Prop :=
  ∃ w₁, w.Same w₁ ∧ (freeAllocs info.allocs w₁).1.2 = "" ∧
    w' = (freeAllocs info.allocs w₁).2.complete info

theorem Freed.of_same {info : DisableInfo} {w w' w'' : World} (h : w.Same w')
    (hfreed : Freed info w' w'') : Freed info w w'' := by
  obtain ⟨w₁, hsame, herror, heq⟩ := hfreed
  exact ⟨w₁, frame_same.trans h hsame, herror, heq⟩

theorem World.same_handOvers (handovers : List Handover) (w : World) :
    w.Same (handovers.foldl World.handOver w) := by
  induction handovers generalizing w with
  | nil => exact frame_same.refl w
  | cons h handovers ih =>
    have hstep : w.Same (w.handOver h) := ⟨rfl, rfl, frame_steady.refl w.target⟩
    exact frame_same.trans hstep (ih (w.handOver h))

theorem cleanupFree_success {saved info : DisableInfo} {handovers : List Handover} {w : World}
    (h : (cleanupFree saved info handovers w).1.success = true) :
    Freed info w (cleanupFree saved info handovers w).2 := by
  have hleave : ∀ w : World, w.Same (w.leave info.ownership) :=
    fun w => ⟨rfl, rfl, frame_steady.refl w.target⟩
  refine ⟨_, frame_same.trans (World.same_handOvers handovers w) (hleave _), ?_⟩
  unfold cleanupFree at h ⊢
  dsimp only at h ⊢
  split at h
  · rename_i hfreed
    rw [if_pos hfreed]
    exact ⟨hfreed, rfl⟩
  · cases h

theorem cleanupRestore_success {saved info : DisableInfo} {w : World}
    (h : (cleanupRestore saved info w).1.success = true) :
    Freed info w (cleanupRestore saved info w).2 := by
  unfold cleanupRestore at h ⊢
  dsimp only at h ⊢
  split at h
  · cases h
  · rename_i hbytes
    rw [if_neg hbytes]
    split at h
    · cases h
    · rename_i hprotections
      rw [if_neg hprotections]
      have hcomplete : w.Same w.dropComplete := ⟨rfl, rfl, frame_steady.refl w.target⟩
      refine Freed.of_same (frame_same.trans hcomplete (frame_same.trans
        (World.same_call _ (steady_restoreBytes _ _))
        (World.same_call _ (moves_collectErrors frame_steady
          (steady_restoreProtection _) _)))) (cleanupFree_success h)

theorem cleanupCheck_success {saved info : DisableInfo} {w : World}
    (h : (cleanupCheck saved info w).1.success = true) :
    Freed info w (cleanupCheck saved info w).2 := by
  have hsame := w.same_call (steady_of_looked (looked_refusal w.released info))
  unfold cleanupCheck at h ⊢
  rcases hcall : w.call (refusal w.released info) with ⟨found, w₁⟩
  rw [hcall] at h hsame
  cases found with
  | some error => cases h
  | none => exact Freed.of_same hsame (cleanupRestore_success h)

theorem cleanupImage_success {saved info : DisableInfo} {w : World}
    (hlive : ∀ image, info.image = some image → w.target.check image = .live)
    (h : (cleanupImage saved info w).1.success = true) :
    Freed info w (cleanupImage saved info w).2 := by
  unfold cleanupImage at h ⊢
  cases himage : info.image with
  | none =>
    simp only [himage] at h ⊢
    exact cleanupCheck_success h
  | some image =>
    simp only [himage, hlive image himage] at h ⊢
    split at h
    · cases h
    · rename_i hpid
      rw [if_neg hpid]
      exact cleanupCheck_success h

/-- The saved patches aside, an undo works with what was saved. -/
structure DisableInfo.SameRecord (saved info : DisableInfo) : Prop where
  allocs : info.allocs = saved.allocs
  symbols : info.symbols = saved.symbols
  image : info.image = saved.image
  ownership : info.ownership = saved.ownership

theorem withoutUnmapped_record (saved : DisableInfo) (t : Target) :
    saved.SameRecord (withoutUnmapped saved t).1 := by
  change saved.SameRecord ((if (saved.image.all fun image => image.pid == t.pid) = true
    then _ else pure saved : Op DisableInfo) t).1
  split
  · exact ⟨rfl, rfl, rfl, rfl⟩
  · exact ⟨rfl, rfl, rfl, rfl⟩

theorem Freed.of_record {saved info : DisableInfo} {w w' : World} (h : saved.SameRecord info)
    (hfreed : Freed info w w') : Freed saved w w' := by
  obtain ⟨w₁, hsame, herror, heq⟩ := hfreed
  rw [h.allocs] at herror heq
  refine ⟨w₁, hsame, herror, ?_⟩
  rw [heq, World.complete, World.complete, h.ownership, h.symbols]

theorem cleanup_success {saved : DisableInfo} {owner : ℕ} {w : World}
    (howner : saved.ownership = some owner) (hopen : (w.owners owner).complete = false)
    (hlive : ∀ image, saved.image = some image → w.target.check image = .live)
    (h : (cleanup saved w).1.success = true) : Freed saved w (cleanup saved w).2 := by
  have hrecord := withoutUnmapped_record saved w.target
  have hsame := w.same_call (steady_of_looked (looked_withoutUnmapped saved))
  have hkept : (w.call (withoutUnmapped saved)).2.owners = w.owners := rfl
  unfold cleanup at h ⊢
  change saved.SameRecord (w.call (withoutUnmapped saved)).1 at hrecord
  rcases hcall : w.call (withoutUnmapped saved) with ⟨info, w₁⟩
  rw [hcall] at h hrecord hsame hkept
  have hown : info.ownership = some owner := hrecord.ownership.trans howner
  simp only [hown] at h ⊢
  have hlock := w₁.same_call (steady_of_looked looked_tryLock)
  have hkept' : (w₁.call tryLock).2.owners = w₁.owners := rfl
  rcases hcall' : w₁.call tryLock with ⟨locked, w₂⟩
  rw [hcall'] at h hlock hkept'
  cases locked with
  | false => cases h
  | true =>
    have hopen' : (w₂.owners owner).complete = false := by
      rw [hkept', hkept]
      exact hopen
    simp only [hopen', Bool.false_eq_true, if_false] at h ⊢
    have hcheck : w₂.target.check = w.target.check :=
      hlock.target.check.trans hsame.target.check
    refine Freed.of_same (frame_same.trans hsame hlock) (Freed.of_record ?_
      (cleanupImage_success ?_ h))
    · exact ⟨hrecord.allocs, hrecord.symbols, hrecord.image, howner.symm⟩
    · intro image himage
      rw [hcheck]
      exact hlive image (hrecord.image ▸ himage)

/-! ### The result of an undo that succeeds -/

theorem cleanupFree_result {saved info : DisableInfo} {handovers : List Handover} {w : World}
    (h : (cleanupFree saved info handovers w).1.success = true) :
    (cleanupFree saved info handovers w).1 = { success := true } := by
  unfold cleanupFree at h ⊢
  dsimp only at h ⊢
  split at h
  · rename_i hfreed
    rw [if_pos hfreed]
  · cases h

theorem cleanupCheck_result {saved info : DisableInfo} {w : World}
    (h : (cleanupCheck saved info w).1.success = true) :
    (cleanupCheck saved info w).1 = { success := true } := by
  unfold cleanupCheck at h ⊢
  split at h
  · cases h
  · unfold cleanupRestore at h ⊢
    dsimp only at h ⊢
    split at h
    · cases h
    · rename_i hbytes
      rw [if_neg hbytes]
      split at h
      · cases h
      · rename_i hprotections
        rw [if_neg hprotections]
        exact cleanupFree_result h

theorem cleanupImage_result {saved info : DisableInfo} {w : World}
    (h : (cleanupImage saved info w).1.success = true) :
    (cleanupImage saved info w).1 = { success := true } := by
  unfold cleanupImage at h ⊢
  split at h
  · exact cleanupCheck_result h
  · split at h
    · cases h
    · rename_i hpid
      rw [if_neg hpid]
      split at h
      · exact cleanupCheck_result h
      · rfl
      · cases h

theorem cleanup_result {saved : DisableInfo} {w : World}
    (h : (cleanup saved w).1.success = true) : (cleanup saved w).1 = { success := true } := by
  unfold cleanup at h ⊢
  dsimp only at h ⊢
  split at h
  · exact cleanupImage_result h
  · split at h
    · cases h
    · split at h
      · rename_i hcomplete
        rw [if_pos hcomplete]
      · rename_i hcomplete
        rw [if_neg hcomplete]
        exact cleanupImage_result h

end CheatEngine.AutoAssembler
