import CheatEngineLinux.Core.UndoRetry

/-!
# An undo after failed undos

A script stops somewhere, with any part of its last write done.  Its rollback may fail, and so may
every later undo: the record is kept, and the next undo takes it up.

* `Attempts`: the undo records that come of failed undos, one after another.
* `Foreign`: code holds a byte that the undo knows nothing of.
* **PROVED `undo_retryable`**: no later undo is refused for the code it finds, and one that succeeds
  brings the bytes of before the script back; an undo that finds a foreign byte writes nothing and
  keeps its record.
* **PROVED `undo_refused_by_own_write`**: a write into a globalalloc block is not recorded, and the
  undo of the same script takes it for a foreign one.
-/

namespace CheatEngine.AutoAssembler

open ByteOverlay Stages

def Script.runLines (script : Script) (s : Run) : Except Run Run :=
  script.lines.foldlM (fun s line => runLine line s) s

def Run.Covers (s : Run) (a : ℕ) : Prop :=
  ∃ patch ∈ s.info.originals, patch.address ≤ a ∧ a < patch.address + patch.bytes.length

/-- The undo records after the lines ended: that of the run, or of the script once it is enabled,
and what every failed undo leaves of it.  Names may change in between. -/
inductive Attempts (owner : ℕ) (script : Script) (stop : Except Run Run) :
    DisableInfo → World → Prop
  | stopped : Attempts owner script stop (outcome stop).info (outcome stop).world
  | enabled {s : Run} (h : stop = .ok s) :
      Attempts owner script stop (s.register owner script).info (s.register owner script).world
  | again {saved : DisableInfo} {w : World} (tables : Tables)
      (h : Attempts owner script stop saved w) (hs : Sighted owner saved w)
      (hfailed : (cleanup saved w).1.success = false) :
      Attempts owner script stop (cleanup saved w).1.disableInfo
        { (cleanup saved w).2 with tables := tables }

/-! ### The first attempt -/

section first

variable {C : ℕ → Prop} {m₀ : ℕ → UInt8} {owner : ℕ} {s : Run}

theorem registerSymbols_eq (s : Run) (owner : ℕ) (script : Script) :
    ∃ tables symbols, s.registerSymbols owner script =
      { s with
        world := { s.world with tables := tables }
        info := { s.info with symbols := symbols } } := by
  have hfold : ∀ (registered : List (String × ℕ)) (s : Run), ∃ tables symbols,
      registered.foldl (registerSymbol owner) s =
        { s with
          world := { s.world with tables := tables }
          info := { s.info with symbols := symbols } } := by
    intro registered
    induction registered with
    | nil => exact fun s => ⟨s.world.tables, s.info.symbols, rfl⟩
    | cons sym registered ih =>
      intro s
      obtain ⟨tables, symbols, hrest⟩ := ih (registerSymbol owner s sym)
      refine ⟨tables, symbols, ?_⟩
      rw [List.foldl_cons, hrest]
      unfold registerSymbol
      split
      · rfl
      · rfl
  unfold Run.registerSymbols
  exact hfold script.registered _

theorem Retryable.register (h : Retryable C m₀ owner s.info s.world)
    (hold : ∀ live ∈ s.world.livePatches, live.owner ≠ owner) (script : Script) :
    Retryable C m₀ owner (s.register owner script).info (s.register owner script).world := by
  obtain ⟨tables, symbols, hregistered⟩ := registerSymbols_eq s owner script
  unfold Run.register
  rw [hregistered]
  dsimp only
  unfold World.enlist
  split
  · exact ⟨h.ownership, h.opened, h.noOverrides, h.image, h.newest, h.record, h.covered⟩
  · refine ⟨h.ownership, h.opened, h.noOverrides, h.image, ?_, h.record, h.covered⟩
    exact ⟨_, _, rfl, fun live hlive => hold live (List.mem_filter.mp hlive).1, Nat.le_refl _⟩

theorem Retryable.names {saved : DisableInfo} {w : World} (h : Retryable C m₀ owner saved w)
    (tables : Tables) : Retryable C m₀ owner saved { w with tables := tables } :=
  h.later rfl h.newest rfl rfl rfl h.record

theorem runAllocs_spec {before : World} {allocs : List Alloc} {s s₀ : Run}
    (h : OwnBlocks owner before s)
    (hrun : allocs.foldlM (fun s a => runAlloc owner a s) s = .ok s₀) :
    OwnBlocks owner before s₀ ∧ s₀.info.originals = s.info.originals ∧
      s₀.world.livePatches = s.world.livePatches := by
  induction allocs generalizing s with
  | nil =>
    cases hrun
    exact ⟨h, rfl, rfl⟩
  | cons a allocs ih =>
    rw [List.foldlM_cons] at hrun
    rcases runAlloc_cases owner a s with ⟨address, hone⟩ | ⟨s', hone, -⟩ | ⟨address, hfits, hone⟩
    · rw [hone] at hrun
      exact @ih { s with addresses := s.addresses ++ [(a, address)] } { h with } hrun
    · rw [hone] at hrun
      cases hrun
    · rw [hone] at hrun
      exact @ih ((s.mapNew address a.size).allocated owner a address)
        (ownBlocks_allocated h hfits) hrun

theorem retryable_lines {before : World} {script : Script} {s₀ : Run}
    (h : OwnBlocks owner before s₀) (hpin : before.target.PinsItself)
    (hlive : ∀ image, before.target.image = some image → before.target.check image = .live)
    (hnone : s₀.info.originals = []) (hold : ∀ live ∈ s₀.world.livePatches, live.owner ≠ owner)
    (hother : Along (Line.Elsewhere (outcome (script.runLines s₀)).Covers) runLine script.lines s₀) :
    Retryable (outcome (script.runLines s₀)).Covers s₀.world.target.mem owner
        (outcome (script.runLines s₀)).info (outcome (script.runLines s₀)).world ∧
      ∀ live ∈ (outcome (script.runLines s₀)).world.livePatches, live.owner ≠ owner := by
  have hpatched := patched_lines script.lines s₀
  have hstart : s₀.Undoes (outcome (script.runLines s₀)).Covers s₀.world.target.mem := by
    unfold Run.Undoes
    rw [hnone]
    exact ⟨fun _ _ => rfl, ⟨fun _ hp => absurd hp List.not_mem_nil,
      fun _ hp => absurd hp List.not_mem_nil⟩, fun _ hp => absurd hp List.not_mem_nil,
      fun _ hp => absurd hp List.not_mem_nil⟩
  have hend := undoes_lines hstart hother
  have hblocks := h.of_patched hpatched
  have hlist : ∀ live ∈ (outcome (script.runLines s₀)).world.livePatches, live.owner ≠ owner := by
    intro live hmem
    exact hold live (hpatched.livePatches ▸ hmem)
  refine ⟨⟨hblocks.ownership, hblocks.opened, hblocks.noOverrides, fun image himage => ?_,
    ⟨_, [], (List.append_nil _).symm, hlist, Nat.zero_le _⟩, hend,
    fun patch hpatch a ha ha' => ⟨patch, hpatch, ha, ha'⟩⟩, hlist⟩
  have himage' := hblocks.image.symm.trans himage
  have hpid : (outcome (script.runLines s₀)).world.target.pid = before.target.pid := hblocks.pid
  have hcheck : (outcome (script.runLines s₀)).world.target.check = before.target.check :=
    hblocks.check
  rw [hpid, hcheck]
  exact ⟨hpin image himage', hlive image himage'⟩

/-- Failed undos leave what can be undone. -/
theorem Attempts.retryable {script : Script} {stop : Except Run Run} {saved : DisableInfo}
    {w : World} (hattempts : Attempts owner script stop saved w)
    (h : Retryable C m₀ owner (outcome stop).info (outcome stop).world)
    (hold : ∀ live ∈ (outcome stop).world.livePatches, live.owner ≠ owner) :
    Retryable C m₀ owner saved w := by
  induction hattempts with
  | stopped => exact h
  | enabled hok =>
    rw [hok] at h hold
    exact h.register hold script
  | again tables hbefore hs hfailed ih =>
    rcases cleanup_restored ih hs with ⟨hsuccess, -⟩ | ⟨-, hkept⟩
    · rw [hfailed] at hsuccess
      cases hsuccess
    · exact hkept.names tables

end first

/-! ### A foreign byte -/

def undoPatches (saved : DisableInfo) (w : World) : List OriginalBytes :=
  match saved.ownership with
  | none => (withoutUnmapped saved w.target).1.originals
  | some owner => (undoRecord owner saved w).originals

/-- A byte of recorded code is neither an original nor a written byte of any patch. -/
def Foreign (saved : DisableInfo) (w : World) : Prop :=
  ∃ patch ∈ undoPatches saved w, patch.verifyOwnership = true ∧
    recordReleased w.released patch.allocationReleased = false ∧
    patch.written.length = patch.bytes.length ∧
    ∃ a, patch.address ≤ a ∧ a < patch.address + patch.bytes.length ∧
      ∀ state ∈ undoPatches saved w,
        recordReleased w.released state.allocationReleased = false →
          ¬state.Records a (w.target.mem a)

section foreign

variable {released : ℕ → Bool} {originals : List OriginalBytes} {t : Target}

theorem records_of_acceptedAt {a : ℕ} {b : UInt8} (h : acceptedAt released originals a b = true) :
    ∃ patch ∈ originals, recordReleased released patch.allocationReleased = false ∧
      patch.Records a b := by
  unfold acceptedAt at h
  obtain ⟨patch, hpatch, hstate⟩ := List.any_eq_true.mp h
  simp only [Bool.and_eq_true, Bool.not_eq_true', Bool.or_eq_true, beq_iff_eq] at hstate
  exact ⟨patch, hpatch, hstate.1.1, hstate.1.2, hstate.2⟩

theorem accepted_of_pieceConflict {address count : ℕ}
    (h : (pieceConflict released originals address count t).1 = none) {i : ℕ} (hi : i < count) :
    acceptedAt released originals (address + i) (t.mem (address + i)) = true := by
  unfold pieceConflict at h
  rw [bind_apply] at h
  cases hread : (read address count t).1 with
  | error r =>
    rw [hread] at h
    cases h
  | ok actual =>
    rw [hread] at h
    dsimp only at h
    split at h
    · cases h
    · rename_i hlength
      rw [not_not] at hlength
      have hslice := (read_eq_ok hread).1
      rw [hlength] at hslice
      have hnone := Option.map_eq_none_iff.mp h
      have hat := List.find?_eq_none.mp hnone i (List.mem_range.mpr hi)
      rw [hslice, getD_slice _ _ hi, Bool.not_eq_true', Bool.not_eq_false] at hat
      exact hat

theorem accepted_of_codeOwnershipConflict
    (h : (codeOwnershipConflict released originals t).1 = none) {patch : OriginalBytes}
    (hpatch : patch ∈ originals) (hverify : patch.verifyOwnership = true)
    (hreleased : recordReleased released patch.allocationReleased = false)
    (hlength : patch.written.length = patch.bytes.length) {a : ℕ} (ha : patch.address ≤ a)
    (ha' : a < patch.address + patch.bytes.length) :
    acceptedAt released originals a (t.mem a) = true := by
  have hlook : ∀ patch : OriginalBytes, Moves Target.Looked (firstSome (fun piece =>
      pieceConflict released originals (patch.address + piece.1) piece.2)
        (pieces patch.bytes.length)) :=
    fun patch => moves_firstSome frame_looked (fun _ => looked_pieceConflict _ _ _ _) _
  obtain ⟨n, -, hpieces⟩ := of_firstSome_eq_none
    (fun patch => Moves.ite (Moves.pure frame_looked _) (hlook patch)) h patch hpatch
  rw [hverify, hreleased, hlength] at hpieces
  simp only [Bool.not_true, bne_self_eq_false, Bool.or_self, Bool.false_eq_true, if_false]
    at hpieces
  obtain ⟨piece, hpiece, hlow, hhigh⟩ := @exists_piece patch.bytes.length (a - patch.address)
    (by omega)
  obtain ⟨k, -, hnone⟩ := of_firstSome_eq_none (fun _ => looked_pieceConflict _ _ _ _) hpieces
    piece hpiece
  have hat := @accepted_of_pieceConflict _ _ _ _ _ hnone (a - patch.address - piece.1) (by omega)
  rw [show patch.address + piece.1 + (a - patch.address - piece.1) = a by omega] at hat
  exact hat

theorem of_orElse_eq_none {β : Type} {a b : Op (Option β)} (h : (orElse a b t).1 = none) :
    (b (a t).2).1 = none := by
  unfold orElse at h
  rw [bind_apply] at h
  cases hfound : (a t).1 with
  | some y =>
    rw [hfound] at h
    cases h
  | none =>
    rw [hfound] at h
    exact h

theorem accepted_of_refusal {info : DisableInfo} (h : (refusal released info t).1 = none)
    {patch : OriginalBytes} (hpatch : patch ∈ info.originals)
    (hverify : patch.verifyOwnership = true)
    (hreleased : recordReleased released patch.allocationReleased = false)
    (hlength : patch.written.length = patch.bytes.length) {a : ℕ} (ha : patch.address ≤ a)
    (ha' : a < patch.address + patch.bytes.length) :
    acceptedAt released info.originals a (t.mem a) = true := by
  have hlast := of_orElse_eq_none h
  obtain ⟨n, -, hnext⟩ := looked_threadConflict released info t
  rw [hnext] at hlast
  split at hlast
  · cases hlast
  · exact accepted_of_codeOwnershipConflict hlast hpatch hverify hreleased hlength ha ha'

/-- Nothing was written, and the record is what was saved. -/
def Refused (saved : DisableInfo) (w : World) (answer : AutoAsmResult × World) : Prop :=
  ∃ error n, answer = ({ error := error, disableInfo := saved }, w.after n)

theorem cleanupCheck_refused {saved info : DisableInfo} {w : World}
    (h : (refusal w.released info w.target).1 ≠ none) :
    Refused saved w (cleanupCheck saved info w) := by
  obtain ⟨n, -, hcall⟩ := w.call_looked (looked_refusal w.released info)
  obtain ⟨error, herror⟩ := Option.ne_none_iff_exists'.mp h
  refine ⟨error, n, ?_⟩
  unfold cleanupCheck
  rw [hcall, herror]

theorem cleanupImage_refused {saved info : DisableInfo} {w : World}
    (h : (refusal w.released info w.target).1 ≠ none)
    (hlive : ∀ image, info.image = some image → w.target.check image ≠ .retired) :
    Refused saved w (cleanupImage saved info w) := by
  unfold cleanupImage
  cases himage : info.image with
  | none => exact cleanupCheck_refused h
  | some image =>
    dsimp only
    split
    · exact ⟨_, w.target.clock, rfl⟩
    · cases hstate : w.target.check image with
      | live => exact cleanupCheck_refused h
      | retired => exact absurd hstate (hlive image himage)
      | unknown message => exact ⟨_, w.target.clock, rfl⟩

/-- **A foreign byte** stops the undo before its first write. -/
theorem cleanup_refused {saved : DisableInfo} {w : World} (h : Foreign saved w)
    (hopen : ∀ owner, saved.ownership = some owner → (w.owners owner).complete = false)
    (hlive : ∀ image, saved.image = some image → w.target.check image ≠ .retired) :
    Refused saved w (cleanup saved w) := by
  obtain ⟨patch, hpatch, hverify, hreleased, hlength, a, ha, ha', hforeign⟩ := h
  have hrecord := withoutUnmapped_record saved w.target
  obtain ⟨n, -, hcall⟩ := w.call_looked (looked_withoutUnmapped saved)
  have hrefusal : ∀ info : DisableInfo, info.originals = undoPatches saved w → ∀ k,
      (refusal (w.after k).released info (w.after k).target).1 ≠ none := by
    intro info hinfo k hnone
    rw [← hinfo] at hpatch hforeign
    obtain ⟨state, hstate, hkept, hbyte⟩ := records_of_acceptedAt
      (accepted_of_refusal hnone hpatch hverify hreleased hlength ha ha')
    exact hforeign state hstate hkept hbyte
  have hlive' : ∀ info : DisableInfo, info.image = saved.image → ∀ k image,
      info.image = some image → (w.after k).target.check image ≠ .retired :=
    fun info hinfo k image himage => hlive image (hinfo.symm.trans himage)
  have hlater : ∀ k answer, Refused saved (w.after k) answer → Refused saved w answer := by
    rintro k answer ⟨error, m, rfl⟩
    exact ⟨error, m, rfl⟩
  unfold cleanup
  rw [hcall]
  dsimp only
  unfold undoPatches at hrefusal
  cases howner : saved.ownership with
  | none =>
    rw [hrecord.ownership.trans howner]
    rw [howner] at hrefusal
    exact hlater n _ (cleanupImage_refused (hrefusal _ rfl n) (hlive' _ hrecord.image n))
  | some owner =>
    rw [hrecord.ownership.trans howner]
    rw [howner] at hrefusal
    dsimp only at hrefusal ⊢
    obtain ⟨k, -, hlock⟩ := (w.after n).call_looked looked_tryLock
    rw [hlock]
    cases (tryLock (w.after n).target).1 with
    | false => exact ⟨_, k, rfl⟩
    | true =>
      have hopen' : (((w.after n).after k).owners owner).complete = false := hopen owner howner
      dsimp only
      rw [hopen', if_neg Bool.false_ne_true]
      exact hlater k _ (cleanupImage_refused (hrefusal _ rfl k) (hlive' _ hrecord.image k))

end foreign

/-! ### The attempts -/

/-- **Undo is retryable and refuses only foreign changes.**  What the lines write into globalalloc
blocks is not recorded; it has to be elsewhere. -/
theorem undo_retryable {w : World} {script : Script} {s₀ : Run} :
    (w.Numbered → w.target.PinsItself → (pin w.target).1 = .ok () →
      script.allocs.foldlM (fun s a => runAlloc w.next a s) (w.start script) = .ok s₀ →
      Along (Line.Elsewhere (outcome (script.runLines s₀)).Covers) runLine script.lines s₀ →
      ∀ {saved : DisableInfo} {w' : World},
        Attempts w.next script (script.runLines s₀) saved w' → Sighted w.next saved w' →
        (inspection w.next saved w').1 = none ∧
        ((cleanup saved w').1.success = true → ∀ a, (outcome (script.runLines s₀)).Covers a →
          (cleanup saved w').2.target.mem a = s₀.world.target.mem a)) ∧
    ∀ {saved : DisableInfo} {w : World}, Foreign saved w →
      (∀ owner, saved.ownership = some owner → (w.owners owner).complete = false) →
      (∀ image, saved.image = some image → w.target.check image ≠ .retired) →
      Refused saved w (cleanup saved w) := by
  refine ⟨?_, fun hforeign hopen hlive => cleanup_refused hforeign hopen hlive⟩
  intro hnumbered hpin hpinned hallocs hother saved w' hattempts hs
  obtain ⟨hblocks, horiginals, hlist⟩ := runAllocs_spec (ownBlocks_start w script) hallocs
  have hold : ∀ live ∈ s₀.world.livePatches, live.owner ≠ w.next := fun live hmem =>
    Nat.ne_of_lt (hnumbered live (hlist ▸ hmem))
  obtain ⟨hstop, hlast⟩ := retryable_lines hblocks hpin (pin_ok hpinned) horiginals hold hother
  have h := hattempts.retryable hstop hlast
  refine ⟨inspection_eq_none h hs, fun hsuccess => ?_⟩
  rcases cleanup_restored h hs with ⟨-, hplace⟩ | ⟨hfailed, -⟩
  · exact hplace
  · rw [hsuccess] at hfailed
    cases hfailed

/-- The eleventh call transfers a single byte. -/
def shortWorld : World :=
  { codeWorld with
    target := { codeTarget with
      reply := fun n =>
        { region := some ⟨0x10000, 0x2000, MemProt.all⟩
          count := if n = 10 then some 1 else none } } }

/-- Where the script that writes across the end of the block stops. -/
def shortStop : Run :=
  outcome (acrossScript.runLines (shortWorld.start acrossScript))

/-- Another writer has been there. -/
def foreignWorld : World :=
  { shortStop.world with target := { shortStop.world.target with mem := fun _ => 0xcc } }

theorem shortStop_elsewhere :
    Along (Line.Elsewhere shortStop.Covers) runLine acrossScript.lines
      (shortWorld.start acrossScript) := by
  refine ⟨fun hglobal => ?_, fun s' _ => ⟨trivial, fun s'' _ => trivial⟩⟩
  exact absurd hglobal (by decide +kernel)

/-- The first undo writes one byte of four; the second one succeeds.  And where the byte is
another's, it is refused. -/
theorem undo_retryable_short :
    (cleanup shortStop.info shortStop.world).1.success = false ∧
      (∀ a, shortStop.Covers a → (cleanup (cleanup shortStop.info shortStop.world).1.disableInfo
          (cleanup shortStop.info shortStop.world).2).2.target.mem a = 0) ∧
      Refused shortStop.info foreignWorld (cleanup shortStop.info foreignWorld) := by
  have hfailed : (cleanup shortStop.info shortStop.world).1.success = false := by decide +kernel
  refine ⟨hfailed, fun a ha => ?_, ?_⟩
  · have hfirst : Attempts shortWorld.next acrossScript
        (acrossScript.runLines (shortWorld.start acrossScript)) shortStop.info shortStop.world :=
      .stopped
    have hagain := hfirst.again (cleanup shortStop.info shortStop.world).2.tables
      (by decide +kernel) hfailed
    exact (undo_retryable.1 (show shortWorld.Numbered from codeWorld_numbered)
      (show shortWorld.target.PinsItself from codeWorld_pinsItself) rfl rfl shortStop_elsewhere
      hagain (by decide +kernel)).2 (by decide +kernel) a ha
  · refine (@undo_retryable shortWorld acrossScript (shortWorld.start acrossScript)).2
      ⟨⟨0x10ffe, [0, 0, 0, 0], [0x90, 0x90, 0x90, 0x90], true, none, true⟩,
        by decide +kernel, rfl, rfl, rfl, 0x10ffe, Nat.le_refl _, by decide, ?_⟩ ?_ ?_
    · decide +kernel
    · intro owner howner
      cases howner
      decide +kernel
    · intro image himage
      cases himage

/-- The second line of the script writes inside the block over its first line. -/
def overStop : Run :=
  outcome (overScript.runLines (codeWorld.start overScript))

theorem undo_refused_by_own_write :
    codeWorld.Numbered ∧ codeWorld.target.PinsItself ∧ (pin codeWorld.target).1 = .ok () ∧
      overScript.allocs.foldlM (fun s a => runAlloc codeWorld.next a s)
        (codeWorld.start overScript) = .ok (codeWorld.start overScript) ∧
      Attempts codeWorld.next overScript (overScript.runLines (codeWorld.start overScript))
        overStop.info overStop.world ∧
      Sighted codeWorld.next overStop.info overStop.world ∧
      (inspection codeWorld.next overStop.info overStop.world).1 =
        some "Code ownership changed at 0x10ffe; saved undo retained" :=
  ⟨codeWorld_numbered, codeWorld_pinsItself, rfl, rfl, .stopped, by decide +kernel,
    by decide +kernel⟩

end CheatEngine.AutoAssembler
