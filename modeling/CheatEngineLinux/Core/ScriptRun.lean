import CheatEngineLinux.Core.Cleanup

/-!
# What a run of a script can touch

Frames of the stages of `execute`: lines only write bytes and protections, allocations only map
new pages and name them.

* `LineFrame`: a relation that all moves of a line stay within.
* `Run.Patched`: what every line leaves alone.
* **PROVED `patched_runLine`**: one line keeps names, flags, mappings and the record's allocations.
* **PROVED `runAlloc_cases`**: what an allocation can do.
* **PROVED `runDealloc_cases`**: what a deferred deallocation can do.
-/

namespace CheatEngine.AutoAssembler

open ByteOverlay Stages

/-! ### Tables -/

namespace Table

variable {V : Type}

theorem find_erase (t : Table V) (name other : String) :
    (t.erase name).find other = if other = name then none else t.find other := by
  unfold find erase
  induction t with
  | nil => simp
  | cons entry t ih =>
    obtain ⟨key, v⟩ := entry
    rw [List.filter_cons, List.lookup_cons]
    by_cases hkey : key = name
    · rw [if_neg (by simp [hkey]), ih]
      by_cases hother : other = name
      · rw [if_pos hother, if_pos hother]
      · rw [if_neg hother, if_neg hother, beq_false_of_ne (hkey ▸ hother)]
    · rw [if_pos (by simpa using hkey), List.lookup_cons, ih]
      by_cases hother : other = key
      · simp [hother, hkey]
      · rw [beq_false_of_ne hother]

theorem find_insert (t : Table V) (name other : String) (v : V) :
    (t.insert name v).find other = if other = name then some v else t.find other := by
  unfold insert
  rw [find, List.lookup_cons, ← find, find_erase]
  by_cases h : other = name
  · simp [h]
  · rw [beq_false_of_ne h, if_neg h, if_neg h]

end Table

/-! ### Lines -/

/-- Bytes, protections, saved patches and deferred names may differ; all else is as it was. -/
structure Run.Patched (s s' : Run) : Prop where
  tables : s'.world.tables = s.world.tables
  released : s'.world.released = s.world.released
  livePatches : s'.world.livePatches = s.world.livePatches
  owners : s'.world.owners = s.world.owners
  next : s'.world.next = s.world.next
  target : s.world.target.Steady s'.world.target
  record : s.info.SameRecord s'.info
  newGlobalBlocks : s'.newGlobalBlocks = s.newGlobalBlocks
  addresses : s'.addresses = s.addresses

theorem frame_patched : Frame Run.Patched where
  refl := fun _ => ⟨rfl, rfl, rfl, rfl, rfl, frame_steady.refl _, ⟨rfl, rfl, rfl, rfl⟩, rfl, rfl⟩
  trans := fun hab hbc =>
    ⟨hbc.tables.trans hab.tables, hbc.released.trans hab.released,
      hbc.livePatches.trans hab.livePatches, hbc.owners.trans hab.owners,
      hbc.next.trans hab.next, frame_steady.trans hab.target hbc.target,
      ⟨hbc.record.allocs.trans hab.record.allocs, hbc.record.symbols.trans hab.record.symbols,
        hbc.record.image.trans hab.record.image,
        hbc.record.ownership.trans hab.record.ownership⟩,
      hbc.newGlobalBlocks.trans hab.newGlobalBlocks, hbc.addresses.trans hab.addresses⟩

theorem Run.patched_call {α : Type} (s : Run) {m : Op α} (h : Moves Target.Steady m) :
    s.Patched (s.call m).2 :=
  ⟨rfl, rfl, rfl, rfl, rfl, h s.world.target, ⟨rfl, rfl, rfl, rfl⟩, rfl, rfl⟩

theorem Run.patched_fail (s : Run) (error : String) : s.Patched (outcome (s.fail error)) :=
  ⟨rfl, rfl, rfl, rfl, rfl, frame_steady.refl _, ⟨rfl, rfl, rfl, rfl⟩, rfl, rfl⟩

theorem Run.patched_savePatch (s : Run) (patch : OriginalBytes) : s.Patched (s.savePatch patch) :=
  ⟨rfl, rfl, rfl, rfl, rfl, frame_steady.refl _, ⟨rfl, rfl, rfl, rfl⟩, rfl, rfl⟩

theorem Run.patched_saveProtection (s : Run) (address size : ℕ) (protection : MemProt) :
    s.Patched (s.saveProtection address size protection) :=
  ⟨rfl, rfl, rfl, rfl, rfl, frame_steady.refl _, ⟨rfl, rfl, rfl, rfl⟩, rfl, rfl⟩

/-- A relation that every move of a line stays within: calls that keep the mappings, a stop, and
records saved for the undo. -/
structure LineFrame (R : Run → Run → Prop) : Prop where
  frame : Frame R
  call : ∀ {α : Type} (s : Run) {m : Op α}, Moves Target.Steady m → R s (s.call m).2
  fail : ∀ (s : Run) (error : String), R s (outcome (s.fail error))
  savePatch : ∀ (s : Run) (patch : OriginalBytes), R s (s.savePatch patch)
  saveProtection : ∀ (s : Run) (address size : ℕ) (protection : MemProt),
    R s (s.saveProtection address size protection)

section lines

variable {R : Run → Run → Prop}

theorem within_saveOriginal (hR : LineFrame R) (address : ℕ) (bytes : List UInt8) (executable mutableData : Bool) :
    Within R (saveOriginal address bytes executable mutableData) := by
  intro s
  unfold saveOriginal
  split
  · exact hR.frame.refl s
  · have hcall := hR.call s (steady_of_looked (looked_read address bytes.length))
    generalize s.call (read address bytes.length) = result at hcall ⊢
    obtain ⟨found, s₁⟩ := result
    cases found with
    | error r => exact hR.frame.trans hcall (hR.fail s₁ _)
    | ok original =>
      dsimp only at hcall ⊢
      split
      · exact hR.frame.trans hcall (hR.fail s₁ _)
      · exact hR.frame.trans hcall (hR.savePatch s₁ _)

theorem within_protectRange (hR : LineFrame R) (change : MemProt → MemProt) (cannotInspect : String)
    (refused : Reply → String) (turns start remaining : ℕ) :
    Within R (protectRange change cannotInspect refused turns start remaining) := by
  induction turns generalizing start remaining with
  | zero => exact Within.ok hR.frame
  | succ turns ih =>
    intro s
    unfold protectRange
    split
    · exact hR.frame.refl s
    · have hcall := hR.call s (steady_of_looked (looked_queryRegion start))
      generalize s.call (queryRegion start) = result at hcall ⊢
      obtain ⟨found, s₁⟩ := result
      cases found with
      | none => exact hR.frame.trans hcall (hR.fail s₁ _)
      | some region =>
        dsimp only at hcall ⊢
        split
        · exact hR.frame.trans hcall (hR.fail s₁ _)
        · generalize min remaining (region.size - (start - region.base)) = count
          have hsaved := hR.frame.trans hcall
            (hR.saveProtection s₁ start count region.protection)
          have hprotect := hR.frame.trans hsaved
            (hR.call (s₁.saveProtection start count region.protection)
              (steady_protect start count (change region.protection)))
          generalize (s₁.saveProtection start count region.protection).call (protect start count (change region.protection)) = result at hprotect ⊢
          obtain ⟨done, s₂⟩ := result
          cases done with
          | error r => exact hR.frame.trans hprotect (hR.fail s₂ _)
          | ok _ => exact hR.frame.trans hprotect (ih _ _ s₂)

theorem within_writeData (hR : LineFrame R) (address : ℕ) (bytes : List UInt8) (mutableData : Bool) (s : Run) :
    R s (writeData address bytes mutableData s).2 := by
  unfold writeData
  have hcall := hR.call s (steady_write address bytes)
  generalize s.call (write address bytes) = result at hcall ⊢
  obtain ⟨written, s₁⟩ := result
  cases written with
  | ok n => exact hcall
  | error r =>
    dsimp only at hcall ⊢
    split
    · exact hR.frame.trans hcall (hR.call s₁ (steady_write address bytes))
    · exact hcall

theorem within_writePatch (hR : LineFrame R) (address : ℕ) (bytes : List UInt8) (executable mutableData : Bool) :
    Within R (writePatch address bytes executable mutableData) := by
  intro s
  unfold writePatch
  have hdata := within_writeData hR address bytes mutableData s
  generalize writeData address bytes mutableData s = result at hdata ⊢
  obtain ⟨written, s₁⟩ := result
  dsimp only at hdata ⊢
  split
  · exact hdata
  · split
    · exact hR.frame.trans hdata (hR.fail s₁ _)
    · refine hR.frame.trans hdata
        (Within.bind hR.frame (within_protectRange hR _ _ _ _ _ _) ?_ s₁)
      intro s₂
      have hcall := hR.call s₂ (steady_write address bytes)
      dsimp only
      split
      · exact hcall
      · exact hR.frame.trans hcall (hR.fail _ _)

theorem within_patchMemory (hR : LineFrame R) (address : ℕ) (bytes : List UInt8) (mutableData : Bool) :
    Within R (patchMemory address bytes mutableData) := by
  intro s
  unfold patchMemory
  split
  · exact hR.fail s _
  · have hcall := hR.call s (steady_of_looked (looked_queryRegion address))
    generalize s.call (queryRegion address) = result at hcall ⊢
    obtain ⟨region, s₁⟩ := result
    exact hR.frame.trans hcall (Within.bind hR.frame (within_saveOriginal hR _ _ _ _)
      (within_writePatch hR _ _ _ _) s₁)

/-- One line, whose deferred names `R` allows. -/
theorem within_runLine (hR : LineFrame R) (line : Line)
    (hunregister : ∀ names, line = .unregisterSymbol names → ∀ s : Run,
      R s { s with deferredUnregisters := s.deferredUnregisters ++ names })
    (hdealloc : ∀ names, line = .dealloc names → ∀ s : Run,
      R s { s with deferredDeallocs := s.deferredDeallocs ++ names }) :
    Within R (runLine line) := by
  intro s
  cases line with
  | code address bytes =>
    simp only [runLine]
    split
    · exact hR.frame.refl s
    · exact within_patchMemory hR _ _ _ s
  | data address bytes typed =>
    simp only [runLine]
    split
    · exact hR.frame.refl s
    · exact within_patchMemory hR _ _ _ s
  | fullAccess address size =>
    simp only [runLine]
    split
    · exact hR.fail s _
    · split
      · exact hR.fail s _
      · exact within_protectRange hR _ _ _ _ _ _ s
  | refuse error => exact hR.fail s _
  | unregisterSymbol names => exact hunregister names rfl s
  | dealloc names => exact hdealloc names rfl s

end lines

theorem linePatched : LineFrame Run.Patched where
  frame := frame_patched
  call := fun s _ h => s.patched_call h
  fail := Run.patched_fail
  savePatch := Run.patched_savePatch
  saveProtection := Run.patched_saveProtection

theorem patched_runLine (line : Line) : Within Run.Patched (runLine line) :=
  within_runLine linePatched line
    (fun _ _ _ => ⟨rfl, rfl, rfl, rfl, rfl, frame_steady.refl _, ⟨rfl, rfl, rfl, rfl⟩, rfl, rfl⟩)
    fun _ _ _ => ⟨rfl, rfl, rfl, rfl, rfl, frame_steady.refl _, ⟨rfl, rfl, rfl, rfl⟩, rfl, rfl⟩

theorem patched_lines (lines : List Line) :
    Within Run.Patched fun s => lines.foldlM (fun s line => runLine line s) s :=
  Within.foldlM frame_patched lines fun line _ => patched_runLine line

/-! ### Allocations -/

def Run.mapNew (s : Run) (address size : ℕ) : Run :=
  { s with world := { s.world with target := s.world.target.mapNew address size } }

theorem runAlloc_cases (owner : ℕ) (a : Alloc) (s : Run) :
    (∃ address, runAlloc owner a s = .ok { s with addresses := s.addresses ++ [(a, address)] }) ∨
      (∃ s', runAlloc owner a s = .error s' ∧ s.Patched s') ∨
      ∃ address, s.world.target.fits address a.size = true ∧
        runAlloc owner a s = .ok ((s.mapNew address a.size).allocated owner a address) := by
  unfold runAlloc
  split
  · exact Or.inl ⟨_, rfl⟩
  · right
    split
    · exact Or.inl ⟨_, rfl, s.patched_fail _⟩
    · rcases allocate_cases a.size s.world.target with ⟨r, hcall⟩ | ⟨address, hfits, hcall⟩
      · left
        have hs : s.call (allocate a.size) = (.error r, (s.call tryLock).2) := by
          unfold Run.call World.call
          rw [hcall]
          rfl
        rw [hs]
        exact ⟨_, rfl, frame_patched.trans (s.patched_call (steady_of_looked looked_tryLock))
          (Run.patched_fail _ _)⟩
      · right
        have hs : s.call (allocate a.size) = (.ok address, s.mapNew address a.size) := by
          unfold Run.call World.call
          rw [hcall]
          rfl
        rw [hs]
        exact ⟨address, hfits, rfl⟩

/-! ### Deferred deallocations -/

/-- A deallocation that does not go on changed nothing, and one of an unknown name does nothing. -/
theorem runDealloc_cases (name : String) (s : Run) :
    (s.world.tables.knownAllocations.find name = none ∧ runDealloc name s = .ok s) ∨
      (∃ entry, s.world.tables.knownAllocations.find name = some entry) ∧
        ∀ s', runDealloc name s = .error s' → s.Patched s' := by
  unfold runDealloc
  cases hfind : s.world.tables.knownAllocations.find name with
  | none => exact Or.inl ⟨rfl, rfl⟩
  | some entry =>
    refine Or.inr ⟨⟨entry, rfl⟩, ?_⟩
    intro s' h
    dsimp only at h
    split at h
    · cases h
      exact s.patched_fail _
    · have hlock := s.patched_call (steady_of_looked looked_tryLock)
      generalize s.call tryLock = result at hlock h
      obtain ⟨locked, s₁⟩ := result
      cases locked with
      | false =>
        cases h
        exact frame_patched.trans hlock (s₁.patched_fail _)
      | true =>
        have hfree : ∀ r s₂, freeTracked entry s₁ = (.error r, s₂) → s₁.Patched s₂ := by
          intro r s₂ hfreed
          unfold freeTracked at hfreed
          split at hfreed
          · cases hfreed
          · cases hfreed
            exact frame_patched.refl s₁
          · unfold Run.call World.call free at hfreed
            dsimp only at hfreed
            split at hfreed
            · cases hfreed
              exact s₁.patched_call (steady_of_looked looked_tryLock)
            · cases hfreed
        dsimp only at h
        rcases hfreed : freeTracked entry s₁ with ⟨done, s₂⟩
        rw [hfreed] at h
        cases done with
        | ok _ => cases h
        | error r =>
          cases h
          exact frame_patched.trans hlock
            (frame_patched.trans (hfree r s₂ hfreed) (s₂.patched_fail _))

/-! ### The replies still to come -/

/-- The calls of a run take their replies in order and change none. -/
def Run.SameReply (s s' : Run) : Prop :=
  s'.world.target.reply = s.world.target.reply

theorem frame_sameReply : Frame Run.SameReply where
  refl := fun _ => rfl
  trans := fun hab hbc => Eq.trans hbc hab

theorem sameReply_runAlloc (owner : ℕ) (a : Alloc) : Within Run.SameReply (runAlloc owner a) := by
  intro s
  rcases runAlloc_cases owner a s with ⟨address, hrun⟩ | ⟨s', hrun, hp⟩ | ⟨address, -, hrun⟩
  · rw [hrun]
    rfl
  · rw [hrun]
    exact hp.target.reply
  · rw [hrun]
    rfl

theorem sameReply_runDealloc (name : String) : Within Run.SameReply (runDealloc name) := by
  intro s
  have hfree : ∀ (entry : AllocEntry) (s : Run),
      (freeTracked entry s).2.world.target.reply = s.world.target.reply := by
    intro entry s
    unfold freeTracked
    split
    · rfl
    · rfl
    · unfold Run.call World.call free
      dsimp only
      split
      · rfl
      · rfl
  unfold runDealloc
  split
  · rfl
  · split
    · rfl
    · split
      · rename_i hlock
        exact (congrArg (fun result => result.2.world.target.reply) hlock).symm
      · rename_i hlock
        have h₁ := congrArg (fun result => result.2.world.target.reply) hlock
        split
        · rename_i hfreed
          have h₂ := congrArg (fun result => result.2.world.target.reply) hfreed
          exact h₂.symm.trans ((hfree _ _).trans h₁.symm)
        · rename_i hfreed
          have h₂ := congrArg (fun result => result.2.world.target.reply) hfreed
          exact h₂.symm.trans ((hfree _ _).trans h₁.symm)

theorem sameReply_runStages (owner : ℕ) (script : Script) :
    Within Run.SameReply (runStages owner script) := by
  intro s
  unfold runStages
  split
  · rfl
  · refine Within.bind frame_sameReply
      (Within.foldlM frame_sameReply script.allocs fun a _ => sameReply_runAlloc owner a) ?_ s
    refine Within.bind frame_sameReply
      (Within.foldlM frame_sameReply script.lines fun line _ s =>
        (patched_runLine line s).target.reply) ?_
    intro s
    exact Within.foldlM frame_sameReply s.deferredDeallocs
      (fun name _ => sameReply_runDealloc name) s

theorem obliging_runStages (owner : ℕ) (script : Script) {s : Run}
    (h : ∀ n, (s.world.target.reply n).Obliging) :
    (outcome (runStages owner script s)).world.target.Obliging := by
  intro n _
  rw [sameReply_runStages owner script s]
  exact h n

/-! ### Only a stop sets the error -/

def Run.SameError (s s' : Run) : Prop :=
  s'.error = s.error

theorem frame_sameError : Frame Run.SameError where
  refl := fun _ => rfl
  trans := fun hab hbc => Eq.trans hbc hab

theorem sameError_saveOriginal (address : ℕ) (bytes : List UInt8)
    (executable mutableData : Bool) :
    Proceeds Run.SameError (saveOriginal address bytes executable mutableData) := by
  intro s s' h
  unfold saveOriginal at h
  split at h
  · cases h
    rfl
  · split at h
    · cases h
    · split at h
      · cases h
      · cases h
        rename_i hread _
        have hs := congrArg (fun result => result.2.error) hread
        exact hs.symm

theorem sameError_protectRange (change : MemProt → MemProt) (cannotInspect : String)
    (refused : Reply → String) (turns start remaining : ℕ) :
    Proceeds Run.SameError (protectRange change cannotInspect refused turns start remaining) := by
  induction turns generalizing start remaining with
  | zero =>
    intro s s' h
    cases h
    rfl
  | succ turns ih =>
    intro s s' h
    unfold protectRange at h
    split at h
    · cases h
      rfl
    · split at h
      · cases h
      · split at h
        · cases h
        · rename_i hregion _
          dsimp only at h
          split at h
          · cases h
          · rename_i hprotect
            have h₁ := congrArg (fun result => result.2.error) hregion
            have h₂ := congrArg (fun result => result.2.error) hprotect
            exact (ih _ _ _ s' h).trans (h₂.symm.trans h₁.symm)

theorem sameError_writeData (address : ℕ) (bytes : List UInt8) (mutableData : Bool) (s : Run) :
    s.SameError (writeData address bytes mutableData s).2 := by
  unfold writeData
  split
  · rename_i hcall
    exact (congrArg (fun result => result.2.error) hcall).symm
  · rename_i hcall
    have hs := congrArg (fun result => result.2.error) hcall
    split
    · exact hs.symm
    · exact hs.symm

theorem sameError_writePatch (address : ℕ) (bytes : List UInt8) (executable mutableData : Bool) :
    Proceeds Run.SameError (writePatch address bytes executable mutableData) := by
  intro s s' h
  have hdata := sameError_writeData address bytes mutableData s
  unfold writePatch at h
  dsimp only at h
  split at h
  · cases h
    exact hdata
  · split at h
    · cases h
    · refine frame_sameError.trans hdata (Proceeds.bind frame_sameError
        (sameError_protectRange _ _ _ _ _ _) ?_ _ s' h)
      intro s₁ s₂ h₁
      beta_reduce at h₁
      split at h₁
      · cases h₁
        rfl
      · cases h₁

theorem sameError_patchMemory (address : ℕ) (bytes : List UInt8) (mutableData : Bool) :
    Proceeds Run.SameError (patchMemory address bytes mutableData) := by
  intro s s' h
  unfold patchMemory at h
  split at h
  · cases h
  · dsimp only at h
    have hcall : s.SameError (s.call (queryRegion address)).2 := rfl
    exact frame_sameError.trans hcall (Proceeds.bind frame_sameError
      (sameError_saveOriginal _ _ _ _) (sameError_writePatch _ _ _ _) _ s' h)

theorem sameError_runLine (line : Line) : Proceeds Run.SameError (runLine line) := by
  intro s s' h
  cases line with
  | code address bytes =>
    simp only [runLine] at h
    split at h
    · cases h
      rfl
    · exact sameError_patchMemory _ _ _ s s' h
  | data address bytes typed =>
    simp only [runLine] at h
    split at h
    · cases h
      rfl
    · exact sameError_patchMemory _ _ _ s s' h
  | fullAccess address size =>
    simp only [runLine] at h
    split at h
    · cases h
    · split at h
      · cases h
      · exact sameError_protectRange _ _ _ _ _ _ s s' h
  | refuse error => cases h
  | unregisterSymbol names =>
    cases h
    rfl
  | dealloc names =>
    cases h
    rfl

theorem sameError_runAlloc (owner : ℕ) (a : Alloc) : Proceeds Run.SameError (runAlloc owner a) := by
  intro s s' h
  rcases runAlloc_cases owner a s with ⟨address, hrun⟩ | ⟨s₁, hrun, -⟩ | ⟨address, -, hrun⟩
  · rw [hrun] at h
    cases h
    rfl
  · rw [hrun] at h
    cases h
  · rw [hrun] at h
    cases h
    rfl

theorem sameError_runDealloc (name : String) : Proceeds Run.SameError (runDealloc name) := by
  intro s s' h
  unfold runDealloc at h
  split at h
  · cases h
    rfl
  · split at h
    · cases h
    · split at h
      · cases h
      · rename_i hlock
        split at h
        · cases h
        · rename_i hfreed
          cases h
          have h₁ := congrArg (fun result => result.2.error) hlock
          have h₂ := congrArg (fun result => result.2.error) hfreed
          have hfree : ∀ (entry : AllocEntry) (s : Run), (freeTracked entry s).2.error = s.error := by
            intro entry s
            unfold freeTracked
            split
            · rfl
            · rfl
            · rfl
          exact h₂.symm.trans ((hfree _ _).trans h₁.symm)

theorem sameError_runStages (owner : ℕ) (script : Script) :
    Proceeds Run.SameError (runStages owner script) := by
  intro s s' h
  unfold runStages at h
  split at h
  · cases h
  · refine Proceeds.bind frame_sameError
      (Proceeds.foldlM frame_sameError script.allocs (sameError_runAlloc owner)) ?_ s s' h
    refine Proceeds.bind frame_sameError
      (Proceeds.foldlM frame_sameError script.lines sameError_runLine) ?_
    intro s₁ s₂ h₁
    exact Proceeds.foldlM frame_sameError s₁.deferredDeallocs sameError_runDealloc s₁ s₂ h₁

theorem register_error (s : Run) (owner : ℕ) (script : Script) :
    (s.register owner script).error = s.error := by
  have hsymbols : ∀ (registered : List (String × ℕ)) (s : Run),
      (registered.foldl (registerSymbol owner) s).error = s.error := by
    intro registered
    induction registered with
    | nil => exact fun _ => rfl
    | cons sym registered ih =>
      intro s
      rw [List.foldl_cons, ih]
      unfold registerSymbol
      split
      · rfl
      · rfl
  exact hsymbols script.registered _

end CheatEngine.AutoAssembler
