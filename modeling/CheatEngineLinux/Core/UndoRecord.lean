import CheatEngineLinux.Core.FailedRun

/-!
# What an undo record knows of the bytes it covers

A script's patches overlap, and its writes and the undo's may be cut short anywhere.  All the same
every covered byte stays in one of the states that the record holds for it.

* `Undoes`: the record restores the bytes of before, and accepts the code that is there.
* `Line.Elsewhere`: what a line writes without a record is elsewhere.
* **PROVED `undoes_write`**: a write of recorded bytes keeps `Undoes`, wherever it ends.
* **PROVED `undoes_lines`**: so do the lines of a script, however far they get.
-/

namespace CheatEngine.AutoAssembler

open ByteOverlay Stages

/-- The patches restore the bytes of `m₀` on `C`, and accept the bytes of recorded code there. -/
structure Undoes (C : ℕ → Prop) (m₀ : ℕ → UInt8) (released : ℕ → Bool)
    (originals : List OriginalBytes) (t : Target) : Prop where
  restores : ∀ a, C a → restoredMem originals t.mem a = m₀ a
  patches : Restorable released originals t
  fits : ∀ patch ∈ originals, overflows patch.address patch.bytes.length = false
  verified : ∀ patch ∈ originals, patch.verifyOwnership = true →
    ∀ a, patch.address ≤ a → a < patch.address + patch.bytes.length → C a →
      acceptedAt released originals a (t.mem a) = true

def OriginalBytes.Records (patch : OriginalBytes) (a : ℕ) (b : UInt8) : Prop :=
  (byteAt patch.address patch.bytes a).isSome ∧
    (byteAt patch.address patch.bytes a = some b ∨ byteAt patch.address patch.written a = some b)

instance (patch : OriginalBytes) (a : ℕ) (b : UInt8) : Decidable (patch.Records a b) :=
  inferInstanceAs (Decidable (_ ∧ (_ ∨ _)))

section undoes

variable {C : ℕ → Prop} {m₀ : ℕ → UInt8} {released : ℕ → Bool} {originals : List OriginalBytes}
  {t t' : Target}

theorem acceptedAt_of_records {patch : OriginalBytes} {a : ℕ} {b : UInt8}
    (hpatch : patch ∈ originals)
    (hreleased : recordReleased released patch.allocationReleased = false)
    (h : patch.Records a b) : acceptedAt released originals a b = true := by
  unfold acceptedAt
  rw [List.any_eq_true]
  refine ⟨patch, hpatch, ?_⟩
  rw [hreleased, h.1]
  rcases h.2 with hbyte | hbyte <;> simp [hbyte]

theorem Undoes.steady (h : Undoes C m₀ released originals t) (hs : t.Steady t')
    (hmem : t'.mem = t.mem) : Undoes C m₀ released originals t' := by
  have hmapped : ∀ a, t'.mapped a = t.mapped a := fun a => by
    unfold Target.mapped Target.page
    rw [hs.pageBits]
    exact hs.mapped _
  refine ⟨by rw [hmem]; exact h.restores, ⟨h.patches.unreleased, fun p hp a ha ha' => ?_⟩,
    h.fits, by rw [hmem]; exact h.verified⟩
  rw [hmapped]
  exact h.patches.mapped p hp a ha ha'

theorem Undoes.save (h : Undoes C m₀ released originals t) {patch : OriginalBytes}
    (hbytes : patch.bytes = slice t.mem patch.address patch.bytes.length)
    (hmapped : ∀ a, patch.address ≤ a → a < patch.address + patch.bytes.length →
      t.mapped a = true)
    (hreleased : recordReleased released patch.allocationReleased = false)
    (hfits : overflows patch.address patch.bytes.length = false) :
    Undoes C m₀ released (originals ++ [patch]) t := by
  have hsplit : ∀ {P : OriginalBytes → Prop}, (∀ p ∈ originals, P p) → P patch →
      ∀ p ∈ originals ++ [patch], P p := by
    intro P hold hnew p hp
    rcases List.mem_append.mp hp with hp | hp
    · exact hold p hp
    · rw [List.mem_singleton.mp hp]
      exact hnew
  refine ⟨fun a ha => ?_, ⟨hsplit h.patches.unreleased hreleased,
    hsplit h.patches.mapped hmapped⟩, hsplit h.fits hfits, hsplit ?_ ?_⟩
  · rw [← h.restores a ha]
    unfold restoredMem
    rw [savedAt_append, savedAt_singleton, hbytes, byteAt_slice]
    cases savedAt originals a with
    | some b => rfl
    | none =>
      rw [Option.none_or]
      split <;> rfl
  · intro p hp hverify a ha ha' hC
    rw [acceptedAt_append, Bool.or_eq_true]
    exact .inl (h.verified p hp hverify a ha ha' hC)
  · intro _ a ha ha' _
    have hbyte : byteAt patch.address patch.bytes a = some (t.mem a) := by
      rw [hbytes, byteAt_slice, if_pos ⟨ha, ha'⟩]
    exact acceptedAt_of_records (List.mem_append_right _ (List.mem_singleton.mpr rfl)) hreleased
      ⟨by rw [hbyte]; rfl, .inl hbyte⟩

/-- **A write of recorded bytes**, or of any bytes elsewhere, may end anywhere. -/
theorem undoes_write (h : Undoes C m₀ released originals t) {address n : ℕ} {bytes : List UInt8}
    (hs : t.Steady t') (hmem : t'.mem = lay t.mem address (bytes.take n))
    (hbytes : ∀ a b, C a → byteAt address bytes a = some b →
      ∃ patch ∈ originals, patch.Records a b) : Undoes C m₀ released originals t' := by
  have hcases := lay_take_cases t.mem address n bytes
  rw [← hmem] at hcases
  have hmapped : ∀ a, t'.mapped a = t.mapped a := fun a => by
    unfold Target.mapped Target.page
    rw [hs.pageBits]
    exact hs.mapped _
  refine ⟨fun a hC => ?_, ⟨h.patches.unreleased, fun p hp a ha ha' => ?_⟩, h.fits,
    fun p hp hverify a ha ha' hC => ?_⟩
  · rw [← h.restores a hC]
    unfold restoredMem
    rcases hcases a with hsame | hbyte
    · rw [hsame]
    · obtain ⟨patch, hpatch, hrecords⟩ := hbytes a _ hC hbyte
      have hsaved : (savedAt originals a).isSome :=
        savedAt_isSome.mpr ⟨patch, hpatch, byteAt_isSome.mp hrecords.1⟩
      obtain ⟨b, hb⟩ := Option.isSome_iff_exists.mp hsaved
      rw [hb]
      rfl
  · rw [hmapped]
    exact h.patches.mapped p hp a ha ha'
  · rcases hcases a with hsame | hbyte
    · rw [hsame]
      exact h.verified p hp hverify a ha ha' hC
    · obtain ⟨patch, hpatch, hrecords⟩ := hbytes a _ hC hbyte
      exact acceptedAt_of_records hpatch (h.patches.unreleased patch hpatch) hrecords

end undoes

/-! ### Calls that write no byte -/

/-- Bytes, saved patches and names are as before. -/
structure Run.Quiet (s s' : Run) : Prop where
  target : s.world.target.Steady s'.world.target
  mem : s'.world.target.mem = s.world.target.mem
  originals : s'.info.originals = s.info.originals
  image : s'.info.image = s.info.image
  tables : s'.world.tables = s.world.tables
  released : s'.world.released = s.world.released

theorem frame_quiet : Frame Run.Quiet where
  refl := fun _ => ⟨frame_steady.refl _, rfl, rfl, rfl, rfl, rfl⟩
  trans := fun hab hbc =>
    ⟨frame_steady.trans hab.target hbc.target, hbc.mem.trans hab.mem,
      hbc.originals.trans hab.originals, hbc.image.trans hab.image, hbc.tables.trans hab.tables,
      hbc.released.trans hab.released⟩

theorem Run.quiet_looked {α : Type} (s : Run) {m : Op α} (h : Moves Target.Looked m) :
    s.Quiet (s.call m).2 := by
  refine ⟨(h s.world.target).steady, ?_, rfl, rfl, rfl, rfl⟩
  obtain ⟨n, -, hnext⟩ := h s.world.target
  change (m s.world.target).2.mem = s.world.target.mem
  rw [hnext]
  rfl

theorem Run.quiet_fail (s : Run) (error : String) : s.Quiet (outcome (s.fail error)) :=
  ⟨frame_steady.refl _, rfl, rfl, rfl, rfl, rfl⟩

theorem Run.quiet_protect (s : Run) (address size : ℕ) (saved protection : MemProt) :
    s.Quiet ((s.saveProtection address size saved).call (protect address size protection)).2 :=
  ⟨steady_protect address size protection s.world.target, rfl, rfl, rfl, rfl, rfl⟩

theorem quiet_protectRange (change : MemProt → MemProt) (cannotInspect : String)
    (refused : Reply → String) (turns start remaining : ℕ) :
    Within Run.Quiet (protectRange change cannotInspect refused turns start remaining) := by
  induction turns generalizing start remaining with
  | zero => exact Within.ok frame_quiet
  | succ turns ih =>
    intro s
    unfold protectRange
    split
    · exact frame_quiet.refl s
    · have hcall := s.quiet_looked (looked_queryRegion start)
      generalize s.call (queryRegion start) = result at hcall ⊢
      obtain ⟨found, s₁⟩ := result
      cases found with
      | none => exact frame_quiet.trans hcall (s₁.quiet_fail _)
      | some region =>
        dsimp only at hcall ⊢
        split
        · exact frame_quiet.trans hcall (s₁.quiet_fail _)
        · generalize min remaining (region.size - (start - region.base)) = count
          have hprotect := frame_quiet.trans hcall
            (s₁.quiet_protect start count region.protection (change region.protection))
          generalize (s₁.saveProtection start count region.protection).call
            (protect start count (change region.protection)) = result at hprotect ⊢
          obtain ⟨done, s₂⟩ := result
          cases done with
          | error r => exact frame_quiet.trans hprotect (s₂.quiet_fail _)
          | ok _ => exact frame_quiet.trans hprotect (ih _ _ s₂)

/-! ### Lines -/

section lines

variable {C : ℕ → Prop} {m₀ : ℕ → UInt8} {s s' : Run} {address : ℕ} {bytes : List UInt8}

def Run.Undoes (C : ℕ → Prop) (m₀ : ℕ → UInt8) (s : Run) : Prop :=
  AutoAssembler.Undoes C m₀ s.world.released s.info.originals s.world.target

def Run.Records (C : ℕ → Prop) (s : Run) (address : ℕ) (bytes : List UInt8) : Prop :=
  ∀ a b, C a → byteAt address bytes a = some b → ∃ patch ∈ s.info.originals, patch.Records a b

theorem Run.Undoes.quiet (h : s.Undoes C m₀) (hs : s.Quiet s') : s'.Undoes C m₀ := by
  unfold Run.Undoes
  rw [hs.originals, hs.released]
  exact h.steady hs.target hs.mem

theorem Run.Records.quiet (h : s.Records C address bytes) (hs : s.Quiet s') :
    s'.Records C address bytes := by
  unfold Run.Records
  rw [hs.originals]
  exact h

theorem Run.Undoes.write (h : s.Undoes C m₀) (hrecords : s.Records C address bytes) :
    (s.call (AutoAssembler.write address bytes)).2.Undoes C m₀ := by
  obtain ⟨n, -, hnext⟩ := write_target address bytes s.world.target
  exact undoes_write h (steady_write address bytes s.world.target)
    (congrArg Target.mem hnext) hrecords

theorem undoes_writeData (h : s.Undoes C m₀) (hrecords : s.Records C address bytes)
    (mutableData : Bool) :
    (writeData address bytes mutableData s).2.Undoes C m₀ ∧
      (writeData address bytes mutableData s).2.Records C address bytes := by
  unfold writeData
  have hwritten := h.write hrecords
  have hrecords' : (s.call (write address bytes)).2.Records C address bytes := hrecords
  generalize s.call (write address bytes) = result at hwritten hrecords' ⊢
  obtain ⟨written, s₁⟩ := result
  cases written with
  | ok n => exact ⟨hwritten, hrecords'⟩
  | error r =>
    dsimp only at hwritten hrecords' ⊢
    split
    · exact ⟨hwritten.write hrecords', hrecords'⟩
    · exact ⟨hwritten, hrecords'⟩

theorem undoes_writePatch (h : s.Undoes C m₀) (hrecords : s.Records C address bytes)
    (executable mutableData : Bool) :
    (outcome (writePatch address bytes executable mutableData s)).Undoes C m₀ := by
  unfold writePatch
  obtain ⟨hdata, hrecords'⟩ := undoes_writeData h hrecords mutableData
  generalize writeData address bytes mutableData s = result at hdata hrecords' ⊢
  obtain ⟨written, s₁⟩ := result
  dsimp only at hdata hrecords' ⊢
  split
  · exact hdata
  · split
    · exact hdata.quiet (s₁.quiet_fail _)
    · have hquiet := quiet_protectRange (fun p => { p with write := true })
        "Cannot inspect original page protection" Reply.message bytes.length address bytes.length
        s₁
      cases hrange : protectRange (fun p => { p with write := true })
        "Cannot inspect original page protection" Reply.message bytes.length address bytes.length
        s₁ with
      | error s₂ =>
        rw [hrange] at hquiet
        exact hdata.quiet hquiet
      | ok s₂ =>
        rw [hrange] at hquiet
        have hagain := (hdata.quiet hquiet).write (hrecords'.quiet hquiet)
        change Run.Undoes C m₀ (outcome (if _ then _ else _))
        split
        · exact hagain
        · exact hagain.quiet (Run.quiet_fail _ _)

/-- What the line writes without a record is off `C`. -/
def Run.Elsewhere (C : ℕ → Prop) (s : Run) (address : ℕ) (bytes : List UInt8) : Prop :=
  inGlobalBlock s.world.tables s.info.image address bytes.length = true →
    ∀ a, address ≤ a → a < address + bytes.length → ¬C a

def Line.Elsewhere (C : ℕ → Prop) : Line → Run → Prop
  | .code address bytes, s => s.Elsewhere C address bytes
  | .data address bytes _, s => s.Elsewhere C address bytes
  | _, _ => True

theorem undoes_saveOriginal (h : s.Undoes C m₀) (hfits : overflows address bytes.length = false)
    (helse : s.Elsewhere C address bytes) (executable mutableData : Bool) :
    (outcome (saveOriginal address bytes executable mutableData s)).Undoes C m₀ ∧
      ∀ s', saveOriginal address bytes executable mutableData s = .ok s' →
        s'.Records C address bytes := by
  unfold saveOriginal
  split
  · rename_i hglobal
    refine ⟨h, fun s' hs' a b hC hbyte => ?_⟩
    have hrange := byteAt_isSome.mp (Option.isSome_of_eq_some hbyte)
    exact absurd hC (helse hglobal a hrange.1 hrange.2)
  · have hquiet := s.quiet_looked (looked_read address bytes.length)
    have hread : ∀ original, (s.call (read address bytes.length)).1 = .ok original → _ :=
      fun original => read_eq_ok
    generalize s.call (read address bytes.length) = result at hquiet hread ⊢
    obtain ⟨found, s₁⟩ := result
    have hlooked := h.quiet hquiet
    cases found with
    | error r => exact ⟨hlooked.quiet (s₁.quiet_fail _), fun s' hs' => by cases hs'⟩
    | ok original =>
      obtain ⟨horiginal, hle⟩ := hread original rfl
      dsimp only
      split
      · exact ⟨hlooked.quiet (s₁.quiet_fail _), fun s' hs' => by cases hs'⟩
      · rename_i hlength
        have hbound := s.world.target.mappedCount_le address bytes.length
        have hsize : original.length = bytes.length := by omega
        refine ⟨hlooked.save ?_ (fun a ha ha' => ?_)
          (recordReleased_allocationRelease s₁ _ _) ?_, fun s' hs' a b _ hbyte => ?_⟩
        · rw [hquiet.mem]
          exact horiginal
        · dsimp only at ha ha'
          have hat := Target.mapped_of_lt_mappedCount
            (show a - address < s.world.target.mappedCount address bytes.length by omega)
          rw [Nat.add_sub_cancel' ha] at hat
          unfold Target.mapped Target.page at hat ⊢
          rw [hquiet.target.pageBits]
          exact (hquiet.target.mapped _).trans hat
        · dsimp only
          rw [hsize]
          exact hfits
        · cases hs'
          refine ⟨_, List.mem_append_right _ (List.mem_singleton.mpr rfl), ?_, .inr hbyte⟩
          have hrange := byteAt_isSome.mp (Option.isSome_of_eq_some hbyte)
          exact byteAt_isSome.mpr ⟨hrange.1, by dsimp only; omega⟩

theorem undoes_patchMemory (h : s.Undoes C m₀) (helse : s.Elsewhere C address bytes)
    (mutableData : Bool) : (outcome (patchMemory address bytes mutableData s)).Undoes C m₀ := by
  unfold patchMemory
  split
  · exact h.quiet (s.quiet_fail _)
  · rename_i hfits
    have hquiet := s.quiet_looked (looked_queryRegion address)
    have helse' : (s.call (queryRegion address)).2.Elsewhere C address bytes := helse
    generalize s.call (queryRegion address) = result at hquiet helse' ⊢
    obtain ⟨region, s₁⟩ := result
    dsimp only at hquiet helse' ⊢
    obtain ⟨hsaved, hrecords⟩ := undoes_saveOriginal (h.quiet hquiet)
      (Bool.eq_false_of_not_eq_true hfits) helse' (region.any fun r => r.protection.exec)
      mutableData
    cases hsave : saveOriginal address bytes (region.any fun r => r.protection.exec) mutableData
      s₁ with
    | error s₂ =>
      rw [hsave] at hsaved
      exact hsaved
    | ok s₂ =>
      rw [hsave] at hsaved
      exact undoes_writePatch hsaved (hrecords s₂ hsave) _ _

theorem undoes_runLine (h : s.Undoes C m₀) {line : Line} (helse : line.Elsewhere C s) :
    (outcome (runLine line s)).Undoes C m₀ := by
  cases line with
  | code address bytes =>
    simp only [runLine]
    split
    · exact h
    · exact undoes_patchMemory h helse _
  | data address bytes typed =>
    simp only [runLine]
    split
    · exact h
    · exact undoes_patchMemory h helse _
  | fullAccess address size =>
    simp only [runLine]
    split
    · exact h.quiet (s.quiet_fail _)
    · split
      · exact h.quiet (s.quiet_fail _)
      · exact h.quiet (quiet_protectRange _ _ _ _ _ _ s)
  | refuse error => exact h.quiet (s.quiet_fail _)
  | unregisterSymbol names => exact h
  | dealloc names => exact h

/-- **The lines of a script**, however far they get. -/
theorem undoes_lines {lines : List Line} (h : s.Undoes C m₀)
    (hother : Along (Line.Elsewhere C) runLine lines s) :
    (outcome (lines.foldlM (fun s line => runLine line s) s)).Undoes C m₀ :=
  hother.invariant (fun _ _ _ hs helse => undoes_runLine hs helse) h

end lines

end CheatEngine.AutoAssembler
