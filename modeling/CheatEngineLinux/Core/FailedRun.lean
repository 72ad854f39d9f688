import CheatEngineLinux.Core.Restore
import CheatEngineLinux.Core.ScriptBlocks

/-!
# A failed run and the target

Whatever a run wrote, opened and mapped before it failed, its rollback takes back: bytes outside
the live globalalloc blocks, page protections and mappings.

* `Undoable`: restoring what a run saved so far gives the target before the run.
* `Unchanged`: the bytes, protections and mappings are as they were.

* **PROVED `undoable_runLine`**: every line keeps `Undoable`, however its calls fail, as long as it
  does not write over recorded code from inside a globalalloc block.
* **PROVED `failed_run_restores_target`**: a failed run whose undo meets no obstacle leaves the
  target unchanged.
* **PROVED `failed_run_leaves_patch`**: a write inside a globalalloc block over code that the run
  has recorded makes the rollback refuse.
-/

namespace CheatEngine.AutoAssembler

open ByteOverlay Stages

/-- A byte of a live globalalloc block. -/
def World.inGlobal (w : World) (a : ℕ) : Bool :=
  inGlobalBlock w.tables w.target.image a 1

/-- Bytes outside live globalalloc blocks, protections and mappings are as they were. -/
structure Unchanged (w w' : World) : Prop where
  bytes : ∀ a, w.target.mapped a = true → w.inGlobal a = false →
    w'.target.mem a = w.target.mem a
  pages : ∀ p, w'.target.pages p = w.target.pages p

/-- Restoring what the run saved so far gives the target before it. -/
structure Undoable (owner : ℕ) (before : World) (s : Run) : Prop
    extends OwnBlocks owner before s where
  globals : ∀ name ∈ s.world.tables.globalAllocations, ∀ entry,
    s.world.tables.knownAllocations.find name = some entry →
      entry ∈ s.info.allocs ∨ name ∈ before.tables.globalAllocations ∧
        before.tables.knownAllocations.find name = some entry
  bytes : ∀ a, before.target.mapped a = true → before.inGlobal a = false →
    restoredMem s.info.originals s.world.target.mem a = before.target.mem a
  protections : ∀ p, inBlocks before.target s.info.allocs p = false →
    restoredPages s.world.target s.info.protections p = before.target.pages p
  patches : Restorable s.world.released s.info.originals s.world.target
  fits : ∀ patch ∈ s.info.originals, overflows patch.address patch.bytes.length = false
  verified : ∀ patch ∈ s.info.originals, patch.verifyOwnership = true →
    ∀ a, patch.address ≤ a → a < patch.address + patch.bytes.length →
      acceptedAt s.world.released s.info.originals a (s.world.target.mem a) = true
  leased : ∀ p ∈ s.info.protections, 0 < p.size ∧ s.world.target.mapped p.address = true ∧
    recordReleased s.world.released p.allocationReleased = false

section steps

variable {owner : ℕ} {before : World} {s : Run}

/-! ### Calls that only look -/

theorem Run.call_looked {α : Type} (s : Run) {m : Op α} (h : Moves Target.Looked m) :
    ∃ n, (s.call m).2 = { s with world := s.world.after n } := by
  obtain ⟨n, -, hnext⟩ := s.world.call_looked h
  refine ⟨n, ?_⟩
  unfold Run.call
  rw [hnext]

theorem Undoable.looked (h : Undoable owner before s) (n : ℕ) :
    Undoable owner before { s with world := s.world.after n } :=
  { h with patches := ⟨h.patches.unreleased, h.patches.mapped⟩ }

theorem Undoable.fail (h : Undoable owner before s) (error : String) :
    Undoable owner before (outcome (s.fail error)) :=
  { h with }

/-! ### Saving a patch -/

theorem savedAt_append (xs ys : List OriginalBytes) (a : ℕ) :
    savedAt (xs ++ ys) a = (savedAt xs a).or (savedAt ys a) := by
  unfold savedAt
  rw [List.map_append, firstAt_append]

theorem savedAt_singleton (patch : OriginalBytes) (a : ℕ) :
    savedAt [patch] a = byteAt patch.address patch.bytes a := by
  unfold savedAt
  rw [List.map_singleton, firstAt_cons, firstAt_nil, Option.or_none]
  rfl

theorem acceptedAt_append (released : ℕ → Bool) (xs ys : List OriginalBytes) (a : ℕ) (b : UInt8) :
    acceptedAt released (xs ++ ys) a b =
      (acceptedAt released xs a b || acceptedAt released ys a b) := by
  unfold acceptedAt
  exact List.any_append

theorem recordReleased_allocationRelease (s : Run) (address size : ℕ) :
    recordReleased s.world.released (allocationRelease s address size) = false := by
  unfold recordReleased allocationRelease
  rw [Option.any_map]
  generalize hfound : Option.or _ _ = found
  cases found with
  | none => rfl
  | some a =>
    have hcontains : a.contains s.world.released address size = true := by
      rcases Option.or_eq_some_iff.mp hfound with hown | ⟨-, hknown⟩
      · exact (List.find?_some hown :)
      · have hboth := List.find?_some hknown
        rw [Bool.and_eq_true] at hboth
        exact hboth.1
    unfold AllocEntry.contains at hcontains
    simp only [Bool.and_eq_true, Bool.not_eq_true'] at hcontains
    exact hcontains.1.1.1

theorem Undoable.savePatch (h : Undoable owner before s) {patch : OriginalBytes}
    (hbytes : patch.bytes = slice s.world.target.mem patch.address patch.bytes.length)
    (hmapped : ∀ a, patch.address ≤ a → a < patch.address + patch.bytes.length →
      s.world.target.mapped a = true)
    (hreleased : recordReleased s.world.released patch.allocationReleased = false)
    (hfits : overflows patch.address patch.bytes.length = false) :
    Undoable owner before (s.savePatch patch) := by
  have hbyte : ∀ a, byteAt patch.address patch.bytes a =
      if patch.address ≤ a ∧ a < patch.address + patch.bytes.length
        then some (s.world.target.mem a) else none := by
    intro a
    rw [← byteAt_slice, ← hbytes]
  have hsplit : ∀ {P : OriginalBytes → Prop}, (∀ p ∈ s.info.originals, P p) → P patch →
      ∀ p ∈ s.info.originals ++ [patch], P p := by
    intro P hold hnew p hp
    rcases List.mem_append.mp hp with hp | hp
    · exact hold p hp
    · rw [List.mem_singleton.mp hp]
      exact hnew
  refine ⟨h.toOwnBlocks.of_patched (s.patched_savePatch patch), h.globals, ?_,
    h.protections, ⟨hsplit h.patches.unreleased hreleased, hsplit h.patches.mapped hmapped⟩,
    hsplit h.fits hfits, hsplit ?_ ?_, h.leased⟩
  · intro a ha hglobal
    rw [← h.bytes a ha hglobal]
    change (savedAt (s.info.originals ++ [patch]) a).getD (s.world.target.mem a) =
      (savedAt s.info.originals a).getD (s.world.target.mem a)
    rw [savedAt_append, savedAt_singleton, hbyte]
    cases savedAt s.info.originals a with
    | some b => rfl
    | none =>
      rw [Option.none_or]
      split
      · rfl
      · rfl
  · intro p hp hverify a ha ha'
    change acceptedAt s.world.released (s.info.originals ++ [patch]) a _ = true
    rw [acceptedAt_append, Bool.or_eq_true]
    exact Or.inl (h.verified p hp hverify a ha ha')
  · intro _ a ha ha'
    change acceptedAt s.world.released (s.info.originals ++ [patch]) a _ = true
    rw [acceptedAt_append, Bool.or_eq_true]
    refine Or.inr ?_
    unfold acceptedAt
    rw [List.any_cons, hreleased, hbyte, if_pos ⟨ha, ha'⟩]
    simp [Run.savePatch]

/-! ### Writing -/

/-- The write is undone, or it stays inside a live globalalloc block and off recorded code. -/
def Run.Writable (s : Run) (address : ℕ) (bytes : List UInt8) : Prop :=
  (∃ patch ∈ s.info.originals, patch.address = address ∧ patch.bytes.length = bytes.length ∧
    patch.written = bytes) ∨
  inGlobalBlock s.world.tables s.info.image address bytes.length = true ∧
    ∀ patch ∈ s.info.originals, patch.verifyOwnership = true → ∀ a, patch.address ≤ a →
      a < patch.address + patch.bytes.length → ¬ (address ≤ a ∧ a < address + bytes.length)

theorem Undoable.inGlobal_or_unmapped (h : Undoable owner before s) {address size a : ℕ}
    (hglobal : inGlobalBlock s.world.tables s.info.image address size = true)
    (ha : address ≤ a) (ha' : a < address + size) :
    before.inGlobal a = true ∨ before.target.mapped a = false := by
  unfold inGlobalBlock at hglobal
  rw [List.any_eq_true] at hglobal
  obtain ⟨name, hname, hknown⟩ := hglobal
  rw [Option.any_eq_true] at hknown
  obtain ⟨entry, hfind, hrange⟩ := hknown
  simp only [Bool.and_eq_true, decide_eq_true_eq] at hrange
  obtain ⟨⟨⟨hlive, hlow⟩, hstart⟩, hsize⟩ := hrange
  rcases h.globals name hname entry hfind with hown | ⟨hbefore, hentry⟩
  · right
    have hin : inBlocks before.target s.info.allocs (before.target.page a) = true :=
      List.any_eq_true.mpr ⟨entry, hown, covers_of_mem (by omega) (by omega)⟩
    unfold Target.mapped
    rw [h.fresh _ hin]
    rfl
  · left
    unfold World.inGlobal inGlobalBlock
    rw [List.any_eq_true]
    refine ⟨name, hbefore, ?_⟩
    rw [hentry, Option.any_some, ← h.image, hlive]
    simp only [Bool.true_and, Bool.and_eq_true, decide_eq_true_eq]
    omega

theorem lay_take_cases (m : ℕ → UInt8) (address n : ℕ) (bytes : List UInt8) (a : ℕ) :
    lay m address (bytes.take n) a = m a ∨
      byteAt address bytes a = some (lay m address (bytes.take n) a) := by
  cases hbyte : byteAt address (bytes.take n) a with
  | none => exact Or.inl (lay_of_none hbyte)
  | some b =>
    right
    rw [lay_of_some hbyte, ← hbyte, byteAt_take]
    rw [byteAt_take] at hbyte
    split at hbyte
    · rename_i hn
      rw [if_pos hn]
    · cases hbyte

theorem Undoable.write (h : Undoable owner before s) {address : ℕ} {bytes : List UInt8}
    (hw : s.Writable address bytes) :
    Undoable owner before (s.call (AutoAssembler.write address bytes)).2 := by
  obtain ⟨n, -, hnext⟩ := write_target address bytes s.world.target
  have hcases := lay_take_cases s.world.target.mem address n bytes
  have hs : (s.call (AutoAssembler.write address bytes)).2 = { s with world := { s.world with
      target := { s.world.target.tick with
        mem := lay s.world.target.mem address (bytes.take n) } } } := by
    unfold Run.call World.call
    rw [hnext]
  rw [hs]
  generalize lay s.world.target.mem address (bytes.take n) = m at hcases
  have hin : ∀ a b, byteAt address bytes a = some b →
      address ≤ a ∧ a < address + bytes.length := by
    intro a b hb
    exact byteAt_isSome.mp (by rw [hb]; rfl)
  refine { h with bytes := ?_, verified := ?_, patches := ⟨h.patches.unreleased, h.patches.mapped⟩ }
  · intro a ha hglobal
    rw [← h.bytes a ha hglobal]
    change (savedAt s.info.originals a).getD (m a) =
      (savedAt s.info.originals a).getD (s.world.target.mem a)
    rcases hcases a with hsame | hbyte
    · rw [hsame]
    · rcases hw with ⟨patch, hpatch, haddress, hlength, -⟩ | ⟨hblock, -⟩
      · have hrange := hin a _ hbyte
        have hsaved : (savedAt s.info.originals a).isSome := by
          rw [savedAt_isSome]
          exact ⟨patch, hpatch, by omega, by omega⟩
        obtain ⟨b, hb⟩ := Option.isSome_iff_exists.mp hsaved
        rw [hb]
        rfl
      · have hrange := hin a _ hbyte
        rcases h.inGlobal_or_unmapped hblock hrange.1 hrange.2 with hin | hun
        · rw [hglobal] at hin
          cases hin
        · rw [ha] at hun
          cases hun
  · intro p hp hverify a ha ha'
    change acceptedAt s.world.released s.info.originals a (m a) = true
    rcases hcases a with hsame | hbyte
    · rw [hsame]
      exact h.verified p hp hverify a ha ha'
    · have hrange := hin a _ hbyte
      rcases hw with ⟨patch, hpatch, rfl, hlength, hwritten⟩ | ⟨-, hdisjoint⟩
      · unfold acceptedAt
        rw [List.any_eq_true]
        refine ⟨patch, hpatch, ?_⟩
        rw [h.patches.unreleased patch hpatch, hwritten, hbyte]
        have hsome : (byteAt patch.address patch.bytes a).isSome :=
          byteAt_isSome.mpr ⟨hrange.1, by omega⟩
        simp [hsome]
      · exact absurd hrange (hdisjoint p hp hverify a ha ha')

/-! ### Opening pages -/

theorem queryRegion_spec {address : ℕ} {t : Target} {region : MemoryRegion}
    (h : (queryRegion address t).1 = some region) :
    region.base ≤ address ∧ address < region.base + region.size ∧
      t.holdsRegion region = true := by
  unfold queryRegion at h
  have hboth := (Option.filter_eq_some_iff.mp h).2
  simp only [Bool.and_eq_true, decide_eq_true_eq] at hboth
  exact ⟨hboth.1.1, hboth.1.2, hboth.2⟩

theorem holdsRegion_pages {t : Target} {region : MemoryRegion} (h : t.holdsRegion region = true)
    {address size p : ℕ} (hlow : region.base ≤ address)
    (hhigh : address + size ≤ region.base + region.size)
    (hp : t.covers address size p = true) : t.pages p = some region.protection := by
  unfold Target.holdsRegion at h
  simp only [Bool.and_eq_true, beq_iff_eq, List.all_eq_true, List.mem_range] at h
  obtain ⟨⟨hbase, hsize⟩, hpages⟩ := h
  unfold Target.covers Target.page at hp
  simp only [Bool.and_eq_true, decide_eq_true_eq] at hp
  obtain ⟨⟨hpos, hfirst⟩, hlast⟩ := hp
  have hps : 0 < 2 ^ t.pageBits := Nat.two_pow_pos _
  obtain ⟨k, hk⟩ := Nat.dvd_of_mod_eq_zero hbase
  obtain ⟨n, hn⟩ := Nat.dvd_of_mod_eq_zero hsize
  have hstart : region.base / 2 ^ t.pageBits = k := by
    rw [hk, Nat.mul_div_cancel_left _ hps]
  have hcount : region.size / 2 ^ t.pageBits = n := by
    rw [hn, Nat.mul_div_cancel_left _ hps]
  have hge : k ≤ p := by
    rw [← hstart]
    exact Nat.le_trans (Nat.div_le_div_right hlow) hfirst
  have hlt : p < k + n := by
    refine Nat.lt_of_le_of_lt hlast ?_
    rw [Nat.div_lt_iff_lt_mul hps, Nat.mul_comm, Nat.mul_add, ← hk, ← hn]
    omega
  have hpage := hpages (p - k) (by rw [hcount]; omega)
  unfold Target.page at hpage
  rw [hstart, show k + (p - k) = p by omega] at hpage
  exact hpage

theorem map_const_congr {x y : Option MemProt} (h : x.isSome = y.isSome) (q : MemProt) :
    (x.map fun _ => q) = y.map fun _ => q := by
  cases x with
  | none =>
    cases y with
    | none => rfl
    | some _ => cases h
  | some _ =>
    cases y with
    | none => cases h
    | some _ => rfl

theorem Undoable.protect (h : Undoable owner before s) {region : MemoryRegion}
    (hregion : s.world.target.holdsRegion region = true) {start count : ℕ} (hcount : 0 < count)
    (hlow : region.base ≤ start) (hhigh : start + count ≤ region.base + region.size)
    (protection : MemProt) :
    Undoable owner before ((s.saveProtection start count region.protection).call
      (AutoAssembler.protect start count protection)).2 := by
  have hsteady := steady_protect start count protection s.world.target
  have hheld : ∀ p, s.world.target.covers start count p = true →
      s.world.target.pages p = some region.protection :=
    fun p hp => holdsRegion_pages hregion hlow hhigh hp
  have hfirst : s.world.target.mapped start = true := by
    unfold Target.mapped
    rw [hheld _ (covers_of_mem (Nat.le_refl _) (by omega))]
    rfl
  have hother : ∀ p, s.world.target.covers start count p = false →
      (AutoAssembler.protect start count protection s.world.target).2.pages p =
        s.world.target.pages p := by
    intro p hp
    simp only [AutoAssembler.protect, hp, Bool.false_and, Bool.false_eq_true, if_false]
  have hmem : (AutoAssembler.protect start count protection s.world.target).2.mem =
      s.world.target.mem := rfl
  obtain ⟨t, ht⟩ : ∃ t, t = (AutoAssembler.protect start count protection s.world.target).2 :=
    ⟨_, rfl⟩
  rw [← ht] at hsteady hother hmem
  have hmapped : ∀ a, t.mapped a = s.world.target.mapped a := by
    intro a
    unfold Target.mapped Target.page
    rw [hsteady.pageBits, hsteady.mapped]
  have hs : ((s.saveProtection start count region.protection).call
      (AutoAssembler.protect start count protection)).2 =
      { s.saveProtection start count region.protection with
        world := { s.world with target := t } } := by
    rw [ht]
    rfl
  have hpatched : s.Patched { s.saveProtection start count region.protection with
      world := { s.world with target := t } } :=
    ⟨rfl, rfl, rfl, rfl, rfl, hsteady, ⟨rfl, rfl, rfl, rfl⟩, rfl, rfl⟩
  rw [hs]
  refine ⟨h.toOwnBlocks.of_patched hpatched, h.globals, ?_, ?_,
    ⟨h.patches.unreleased, ?_⟩, h.fits, ?_, ?_⟩
  · intro a ha hglobal
    rw [← h.bytes a ha hglobal]
    change (savedAt s.info.originals a).getD (t.mem a) = _
    rw [hmem]
    rfl
  · intro p hp
    rw [← h.protections p hp]
    have hcovers : ∀ ps, protectedAt t ps p = protectedAt s.world.target ps p := by
      intro ps
      unfold protectedAt
      simp only [covers_congr hsteady.pageBits]
    change (protectedAt t (s.info.protections ++ [⟨start, count, region.protection,
        allocationRelease s start count⟩]) p).elim (t.pages p) (fun q => (t.pages p).map fun _ => q)
      = (protectedAt s.world.target s.info.protections p).elim (s.world.target.pages p)
        (fun q => (s.world.target.pages p).map fun _ => q)
    rw [hcovers, protectedAt_append]
    cases protectedAt s.world.target s.info.protections p with
    | some q => exact map_const_congr (hsteady.mapped p) q
    | none =>
      rw [Option.none_or, Option.elim_none, protectedAt, List.findSome?_singleton]
      dsimp only
      cases hc : s.world.target.covers start count p with
      | true =>
        rw [if_pos rfl, Option.elim_some, map_const_congr (hsteady.mapped p), hheld p hc]
        rfl
      | false =>
        rw [if_neg (by decide), Option.elim_none]
        exact hother p hc
  · intro patch hpatch a ha ha'
    exact (hmapped a).trans (h.patches.mapped patch hpatch a ha ha')
  · intro patch hpatch hverify a ha ha'
    change acceptedAt s.world.released s.info.originals a (t.mem a) = true
    rw [hmem]
    exact h.verified patch hpatch hverify a ha ha'
  · intro p hp
    change 0 < p.size ∧ t.mapped p.address = true ∧ _
    rw [hmapped]
    rcases List.mem_append.mp hp with hp | hp
    · exact h.leased p hp
    · rw [List.mem_singleton.mp hp]
      exact ⟨hcount, hfirst, recordReleased_allocationRelease s start count⟩

/-! ### Lines -/

/-- A write that would stay in the target after a rollback leaves recorded code alone. -/
def Run.SparesCode (s : Run) (address : ℕ) (bytes : List UInt8) : Prop :=
  inGlobalBlock s.world.tables s.info.image address bytes.length = true →
    ∀ patch ∈ s.info.originals, patch.verifyOwnership = true → ∀ a, patch.address ≤ a →
      a < patch.address + patch.bytes.length → ¬ (address ≤ a ∧ a < address + bytes.length)

def Line.SparesCode : Line → Run → Prop
  | .code address bytes, s => s.SparesCode address bytes
  | .data address bytes _, s => s.SparesCode address bytes
  | _, _ => True

theorem Run.Writable.of_patched {s' : Run} {address : ℕ} {bytes : List UInt8}
    (h : s.Writable address bytes) (hp : s.Patched s')
    (ho : s'.info.originals = s.info.originals) : s'.Writable address bytes := by
  unfold Run.Writable
  rw [ho, hp.tables, hp.record.image]
  exact h

theorem undoable_protectRange (change : MemProt → MemProt) (cannotInspect : String)
    (refused : Reply → String) (turns start remaining : ℕ) (h : Undoable owner before s) :
    Undoable owner before
        (outcome (protectRange change cannotInspect refused turns start remaining s)) ∧
      (outcome (protectRange change cannotInspect refused turns start remaining s)).info.originals =
        s.info.originals := by
  induction turns generalizing start remaining s with
  | zero => exact ⟨h, rfl⟩
  | succ turns ih =>
    unfold protectRange
    split
    · exact ⟨h, rfl⟩
    · rename_i hremaining
      obtain ⟨n, hs₁⟩ := s.call_looked (looked_queryRegion start)
      have hspec := @queryRegion_spec start s.world.target
      have hlooked := h.looked n
      rw [← hs₁] at hlooked
      have hheld : ∀ region, (s.call (queryRegion start)).2.world.target.holdsRegion region =
          s.world.target.holdsRegion region := fun _ => rfl
      have horiginals : (s.call (queryRegion start)).2.info.originals = s.info.originals := rfl
      change ∀ {region}, (s.call (queryRegion start)).1 = some region → _ at hspec
      generalize s.call (queryRegion start) = result at hspec hlooked hheld horiginals ⊢
      obtain ⟨found, s₁⟩ := result
      cases found with
      | none => exact ⟨hlooked.fail _, horiginals⟩
      | some region =>
        dsimp only at hspec hlooked hheld horiginals ⊢
        obtain ⟨hlow, hhigh, hregion⟩ := hspec rfl
        split
        · exact ⟨hlooked.fail _, horiginals⟩
        · obtain ⟨count, hcount⟩ : ∃ count,
            count = min remaining (region.size - (start - region.base)) := ⟨_, rfl⟩
          have hopened := hlooked.protect (by rw [hheld]; exact hregion)
            (show 0 < count by omega) hlow (by omega) (change region.protection)
          have horiginals' : ((s₁.saveProtection start count region.protection).call
              (protect start count (change region.protection))).2.info.originals =
              s.info.originals := horiginals
          rw [← hcount]
          generalize (s₁.saveProtection start count region.protection).call
            (protect start count (change region.protection)) = result at hopened horiginals' ⊢
          obtain ⟨done, s₂⟩ := result
          cases done with
          | error r => exact ⟨hopened.fail _, horiginals'⟩
          | ok _ =>
            obtain ⟨hrest, hsame⟩ := ih (start + count) (remaining - count) hopened
            exact ⟨hrest, hsame.trans horiginals'⟩

/-- The patch to be written is saved, or needs no saving. -/
theorem undoable_saveOriginal (h : Undoable owner before s) {address : ℕ} {bytes : List UInt8}
    (hfits : overflows address bytes.length = false) (hspares : s.SparesCode address bytes)
    (executable mutableData : Bool) :
    Undoable owner before (outcome (saveOriginal address bytes executable mutableData s)) ∧
      ∀ s', saveOriginal address bytes executable mutableData s = .ok s' →
        s'.Writable address bytes := by
  unfold saveOriginal
  split
  · rename_i hglobal
    refine ⟨h, fun s' hs' => ?_⟩
    cases hs'
    exact Or.inr ⟨hglobal, hspares hglobal⟩
  · obtain ⟨n, hs₁⟩ := s.call_looked (looked_read address bytes.length)
    have hread : ∀ original, (s.call (read address bytes.length)).1 = .ok original →
        ∃ k, k ≤ s.world.target.mappedCount address bytes.length ∧
          original = slice s.world.target.mem address k := by
      intro original horiginal
      change (if (s.world.target.reply s.world.target.clock).fails then _ else _) = _ at horiginal
      split at horiginal
      · cases horiginal
      · cases horiginal
        refine ⟨_, ?_, rfl⟩
        unfold Reply.limit
        cases (s.world.target.reply s.world.target.clock).count with
        | none => exact Nat.le_refl _
        | some k => exact Nat.min_le_left _ _
    have hlooked := h.looked n
    rw [← hs₁] at hlooked
    have hmem : (s.call (read address bytes.length)).2.world.target.mem = s.world.target.mem := rfl
    have hmapped : (s.call (read address bytes.length)).2.world.target.mapped =
      s.world.target.mapped := rfl
    generalize s.call (read address bytes.length) = result at hread hlooked hmem hmapped ⊢
    obtain ⟨found, s₁⟩ := result
    cases found with
    | error r => exact ⟨hlooked.fail _, fun s' hs' => by cases hs'⟩
    | ok original =>
      dsimp only at hread hlooked hmem hmapped ⊢
      split
      · exact ⟨hlooked.fail _, fun s' hs' => by cases hs'⟩
      · rename_i hlength
        obtain ⟨k, hk, horiginal⟩ := hread original rfl
        have hle := s.world.target.mappedCount_le address bytes.length
        have hkLength : original.length = k := by rw [horiginal, slice_length]
        have hall : k = bytes.length := by omega
        refine ⟨?_, fun s' hs' => ?_⟩
        · refine hlooked.savePatch ?_ ?_ (recordReleased_allocationRelease s₁ _ _) ?_
          · dsimp only
            rw [hkLength, hmem]
            exact horiginal
          · dsimp only
            rw [hmapped, hkLength]
            intro a ha ha'
            have hat := Target.mapped_of_lt_mappedCount
              (show a - address < s.world.target.mappedCount address bytes.length by omega)
            rwa [show address + (a - address) = a by omega] at hat
          · dsimp only
            rw [hkLength, hall]
            exact hfits
        · cases hs'
          refine Or.inl ⟨_, List.mem_append_right _ (List.mem_singleton.mpr rfl), rfl, ?_, rfl⟩
          dsimp only
          rw [hkLength, hall]

theorem undoable_writeData (h : Undoable owner before s) {address : ℕ} {bytes : List UInt8}
    (hw : s.Writable address bytes) (mutableData : Bool) :
    Undoable owner before (writeData address bytes mutableData s).2 ∧
      (writeData address bytes mutableData s).2.Writable address bytes := by
  unfold writeData
  have hwritten := h.write hw
  have hw' : (s.call (write address bytes)).2.Writable address bytes :=
    hw.of_patched (s.patched_call (steady_write address bytes)) rfl
  generalize s.call (write address bytes) = result at hwritten hw' ⊢
  obtain ⟨written, s₁⟩ := result
  cases written with
  | ok n => exact ⟨hwritten, hw'⟩
  | error r =>
    dsimp only at hwritten hw' ⊢
    split
    · exact ⟨hwritten.write hw',
        hw'.of_patched (s₁.patched_call (steady_write address bytes)) rfl⟩
    · exact ⟨hwritten, hw'⟩

theorem undoable_writePatch (h : Undoable owner before s) {address : ℕ} {bytes : List UInt8}
    (hw : s.Writable address bytes) (executable mutableData : Bool) :
    Undoable owner before (outcome (writePatch address bytes executable mutableData s)) := by
  unfold writePatch
  obtain ⟨hdata, hw'⟩ := undoable_writeData h hw mutableData
  generalize writeData address bytes mutableData s = result at hdata hw' ⊢
  obtain ⟨written, s₁⟩ := result
  dsimp only at hdata hw' ⊢
  split
  · exact hdata
  · split
    · exact hdata.fail _
    · obtain ⟨hopened, horiginals⟩ := undoable_protectRange (fun p => { p with write := true })
        "Cannot inspect original page protection" Reply.message bytes.length address bytes.length
        hdata
      have hpatched := within_protectRange linePatched (fun p => { p with write := true })
        "Cannot inspect original page protection" Reply.message bytes.length address bytes.length
        s₁
      cases hrange : protectRange (fun p => { p with write := true })
        "Cannot inspect original page protection" Reply.message bytes.length address bytes.length
        s₁ with
      | error s₂ =>
        rw [hrange] at hopened
        exact hopened
      | ok s₂ =>
        rw [hrange] at hopened horiginals hpatched
        have hagain := hopened.write (hw'.of_patched hpatched horiginals)
        change Undoable owner before (outcome (if _ then _ else _))
        split
        · exact hagain
        · exact hagain.fail _

theorem undoable_patchMemory (h : Undoable owner before s) {address : ℕ} {bytes : List UInt8}
    (hspares : s.SparesCode address bytes) (mutableData : Bool) :
    Undoable owner before (outcome (patchMemory address bytes mutableData s)) := by
  unfold patchMemory
  split
  · exact h.fail _
  · rename_i hfits
    obtain ⟨n, hs₁⟩ := s.call_looked (looked_queryRegion address)
    have hlooked := h.looked n
    rw [← hs₁] at hlooked
    have hspares' : (s.call (queryRegion address)).2.SparesCode address bytes := hspares
    generalize s.call (queryRegion address) = result at hlooked hspares' ⊢
    obtain ⟨region, s₁⟩ := result
    dsimp only at hlooked hspares' ⊢
    obtain ⟨hsaved, hwritable⟩ := undoable_saveOriginal hlooked
      (Bool.eq_false_of_not_eq_true hfits) hspares' (region.any fun r => r.protection.exec)
      mutableData
    cases hsave : saveOriginal address bytes (region.any fun r => r.protection.exec) mutableData
      s₁ with
    | error s₂ =>
      rw [hsave] at hsaved
      exact hsaved
    | ok s₂ =>
      rw [hsave] at hsaved
      exact undoable_writePatch hsaved (hwritable s₂ hsave) _ _

theorem undoable_runLine (h : Undoable owner before s) {line : Line} (hspares : line.SparesCode s) :
    Undoable owner before (outcome (runLine line s)) := by
  cases line with
  | code address bytes =>
    simp only [runLine]
    split
    · exact h
    · exact undoable_patchMemory h hspares _
  | data address bytes typed =>
    simp only [runLine]
    split
    · exact h
    · exact undoable_patchMemory h hspares _
  | fullAccess address size =>
    simp only [runLine]
    split
    · exact h.fail _
    · split
      · exact h.fail _
      · exact (undoable_protectRange _ _ _ _ _ _ h).1
  | refuse error => exact h.fail _
  | unregisterSymbol names => exact { h with }
  | dealloc names => exact { h with }

/-! ### Allocations -/

theorem recordReleased_update {released : ℕ → Bool} {flag : Option ℕ}
    (h : recordReleased released flag = false) (n : ℕ) :
    recordReleased (Function.update released n false) flag = false := by
  cases flag with
  | none => rfl
  | some k =>
    change Function.update released n false k = false
    by_cases hk : k = n
    · rw [hk, Function.update_self]
    · rw [Function.update_of_ne hk]
      exact h

theorem acceptedAt_update {released : ℕ → Bool} {originals : List OriginalBytes} {a : ℕ}
    {b : UInt8} (h : acceptedAt released originals a b = true) (n : ℕ) :
    acceptedAt (Function.update released n false) originals a b = true := by
  unfold acceptedAt at h ⊢
  rw [List.any_eq_true] at h ⊢
  obtain ⟨patch, hpatch, haccept⟩ := h
  refine ⟨patch, hpatch, ?_⟩
  rw [Bool.and_eq_true, Bool.and_eq_true, Bool.not_eq_true'] at haccept ⊢
  exact ⟨⟨recordReleased_update haccept.1.1 n, haccept.1.2⟩, haccept.2⟩

theorem undoable_allocated (h : Undoable owner before s) {a : Alloc} {address : ℕ}
    (hfits : s.world.target.fits address a.size = true) :
    Undoable owner before ((s.mapNew address a.size).allocated owner a address) := by
  obtain ⟨-, -, hfree⟩ := fits_spec hfits
  obtain ⟨s', hs'⟩ : ∃ s', s' = (s.mapNew address a.size).allocated owner a address := ⟨_, rfl⟩
  obtain ⟨entry, hentry⟩ : ∃ entry : AllocEntry, entry = ⟨a.name, address,
      mappedSize (s.mapNew address a.size).world.target s.info.image a.size, s.world.next, owner,
      s.info.image⟩ := ⟨_, rfl⟩
  have hallocs : s'.info.allocs = s.info.allocs ++ [entry] := by rw [hs', hentry]; rfl
  have htables : s'.world.tables = s.world.tables.track a.global entry := by
    rw [hs', hentry]
    rfl
  have hreleased : s'.world.released = Function.update s.world.released s.world.next false := by
    rw [hs']
    rfl
  have hown := ownBlocks_allocated h.toOwnBlocks hfits
  rw [← hs'] at hown ⊢
  have hmem : ∀ x, s.world.target.mapped x = true →
      s'.world.target.mem x = s.world.target.mem x := by
    intro x hx
    rw [hs']
    change (if s.world.target.covers address a.size (s.world.target.page x) then 0 else _) = _
    split
    · rename_i hc
      unfold Target.mapped at hx
      rw [hfree _ hc] at hx
      cases hx
    · rfl
  have hmapped : ∀ x, s.world.target.mapped x = true → s'.world.target.mapped x = true := by
    intro x hx
    rw [hs']
    change Option.isSome (if s.world.target.covers address a.size (s.world.target.page x) then _
      else s.world.target.pages (s.world.target.page x)) = true
    split
    · rfl
    · exact hx
  have hbefore : ∀ x, before.target.mapped x = true → s.world.target.mapped x = true := by
    intro x hx
    unfold Target.mapped Target.page at hx ⊢
    rw [h.pageBits, h.mapped, hx, Bool.true_or]
  have horiginals : s'.info.originals = s.info.originals := by rw [hs']; rfl
  have hprotections : s'.info.protections = s.info.protections := by rw [hs']; rfl
  refine ⟨hown, ?_, ?_, ?_, ⟨?_, ?_⟩, ?_, ?_, ?_⟩
  · rw [htables, hallocs]
    intro name hmem e he
    change (s.world.tables.knownAllocations.insert entry.name entry).find name = some e at he
    rw [Table.find_insert] at he
    by_cases heq : name = entry.name
    · rw [if_pos heq] at he
      cases he
      exact Or.inl (List.mem_append_right _ (List.mem_singleton.mpr rfl))
    · rw [if_neg heq] at he
      have hold : name ∈ s.world.tables.globalAllocations := by
        have hcontains := contains_track s.world.tables a.global entry name
        rw [beq_false_of_ne (Ne.symm heq), Bool.and_false, Bool.or_false] at hcontains
        rw [← List.contains_iff_mem] at hmem ⊢
        exact hcontains ▸ hmem
      rcases h.globals name hold e he with hin | hin
      · exact Or.inl (List.mem_append_left _ hin)
      · exact Or.inr hin
  · intro x hx hglobal
    rw [horiginals, ← h.bytes x hx hglobal]
    unfold restoredMem
    rw [hmem x (hbefore x hx)]
  · intro p hp
    rw [hallocs, inBlocks_append, Bool.or_eq_false_iff] at hp
    rw [← h.protections p hp.1, hprotections]
    have hcovers : s.world.target.covers address a.size p = false := by
      rw [← h.covers_entry hfits p]
      rw [hentry] at hp
      exact hp.2
    have hpage : s'.world.target.pages p = s.world.target.pages p := by
      rw [hs']
      change (if s.world.target.covers address a.size p then _ else _) = _
      rw [hcovers, if_neg (by decide)]
    have hsaved : protectedAt s'.world.target s.info.protections p =
        protectedAt s.world.target s.info.protections p := by
      unfold protectedAt
      simp only [covers_congr (hown.pageBits.trans h.pageBits.symm)]
    unfold restoredPages
    rw [hsaved, hpage]
  · rw [horiginals, hreleased]
    exact fun patch hpatch => recordReleased_update (h.patches.unreleased patch hpatch) _
  · rw [horiginals]
    exact fun patch hpatch x hx hx' => hmapped x (h.patches.mapped patch hpatch x hx hx')
  · rw [horiginals]
    exact h.fits
  · rw [horiginals, hreleased]
    intro patch hpatch hverify x hx hx'
    rw [hmem x (h.patches.mapped patch hpatch x hx hx')]
    exact acceptedAt_update (h.verified patch hpatch hverify x hx hx') _
  · rw [hprotections, hreleased]
    intro p hp
    obtain ⟨hsize, hat, hopen⟩ := h.leased p hp
    exact ⟨hsize, hmapped _ hat, recordReleased_update hopen _⟩

theorem undoable_runAlloc (h : Undoable owner before s) (a : Alloc) :
    Undoable owner before (outcome (runAlloc owner a s)) := by
  unfold runAlloc
  split
  · exact { h with }
  · split
    · exact h.fail _
    · rcases allocate_cases a.size s.world.target with ⟨r, hcall⟩ | ⟨address, hfits, hcall⟩
      · have hs : s.call (allocate a.size) =
            (.error r, { s with world := s.world.after (s.world.target.clock + 1) }) := by
          unfold Run.call World.call
          rw [hcall]
          rfl
        rw [hs]
        exact (h.looked _).fail _
      · have hs : s.call (allocate a.size) = (.ok address, s.mapNew address a.size) := by
          unfold Run.call World.call
          rw [hcall]
          rfl
        rw [hs]
        exact undoable_allocated h hfits

/-! ### The rollback -/

/-- No script in the list is newer than the undo record. -/
def Newest (owner : ℕ) (livePatches : List LivePatch) : Prop :=
  ∃ older last, livePatches = older ++ last ∧ (∀ live ∈ older, live.owner ≠ owner) ∧
    last.length ≤ 1

theorem newerPatches_newest {w : World} (h : Newest owner w.livePatches) :
    newerPatches w.dropComplete owner = [] := by
  obtain ⟨older, last, hlist, holder, hlast⟩ := h
  have hdrop : ((w.dropComplete.livePatches.dropWhile fun live => live.owner != owner).drop 1) =
      [] := by
    unfold World.dropComplete
    dsimp only
    rw [hlist, List.filter_append]
    have hskip : ∀ xs : List LivePatch, (∀ live ∈ xs, live.owner ≠ owner) → ∀ ys,
        (xs ++ ys).dropWhile (fun live => live.owner != owner) =
          ys.dropWhile fun live => live.owner != owner := by
      intro xs hxs ys
      refine List.dropWhile_append_of_pos fun live hlive => ?_
      exact bne_iff_ne.mpr (hxs live hlive)
    rw [hskip _ fun live hlive => holder live (List.mem_filter.mp hlive).1, List.drop_eq_nil_iff]
    calc _ ≤ (last.filter fun live => !(w.owners live.owner).complete).length :=
          (List.dropWhile_sublist _).length_le
      _ ≤ last.length := List.length_filter_le _ _
      _ ≤ 1 := hlast
  unfold newerPatches
  rw [hdrop]
  rfl

theorem planHandovers_newest {w : World} {info : DisableInfo}
    (howner : info.ownership = some owner) (h : Newest owner w.livePatches) :
    planHandovers w.dropComplete info = ([], info.originals) := by
  unfold planHandovers
  rw [howner]
  dsimp only
  rw [newerPatches_newest h]
  have hnone : claimsOf info.originals [] = [] := by
    unfold claimsOf
    rw [List.flatMap_eq_nil_iff]
    intro patch _
    split
    · rfl
    · rfl
  rw [hnone]
  rfl

theorem freeAllocs_mem (allocs : List AllocEntry) (w : World) :
    (freeAllocs allocs w).2.target.mem = w.target.mem := by
  induction allocs generalizing w with
  | nil => rfl
  | cons a allocs ih =>
    have hfree : (w.call (free a.address a.size)).2.target.mem = w.target.mem := by
      unfold World.call free
      dsimp only
      split
      · rfl
      · rfl
    unfold freeAllocs
    split
    · exact ih w
    · generalize w.call (free a.address a.size) = result at hfree
      obtain ⟨freed, w₁⟩ := result
      cases freed with
      | error r => exact (ih w₁).trans hfree
      | ok _ => exact (ih (w₁.release a)).trans hfree

/-- What `pinNativeMemoryImage` pins is an image of the process itself. -/
def Target.PinsItself (t : Target) : Prop :=
  ∀ image, t.image = some image → image.pid = t.pid

theorem Undoable.ready (h : Undoable owner before s) (hobliging : s.world.target.Obliging)
    (hpin : before.target.PinsItself)
    (hlive : ∀ image, before.target.image = some image → before.target.check image = .live)
    (hnewest : Newest owner s.world.livePatches) : Ready s.info owner s.world := by
  have heffective : effective s.world owner s.info = s.info.originals := by
    unfold effective
    rw [h.noOverrides]
    rfl
  refine ⟨hobliging, h.ownership, h.opened, ?_, ?_, ?_, ?_, h.leased, ?_⟩
  · intro image himage
    rw [h.image] at himage
    rw [h.pid, h.check]
    exact ⟨hpin image himage, hlive image himage⟩
  · intro patch hpatch hne
    have hpos := List.length_pos_iff.mpr hne
    exact h.patches.mapped patch hpatch _ (Nat.le_refl _) (by omega)
  · rw [heffective]
    exact h.fits
  · rw [heffective]
    intro patch hpatch hverify a ha ha'
    exact ⟨h.patches.mapped patch hpatch a ha ha', h.verified patch hpatch hverify a ha ha'⟩
  · rw [heffective, planHandovers_newest h.ownership hnewest]
    exact h.patches

/-- A run that can be undone, and whose undo meets no obstacle, leaves the target as it was. -/
theorem Undoable.rollback (h : Undoable owner before s) (hobliging : s.world.target.Obliging)
    (hpin : before.target.PinsItself)
    (hlive : ∀ image, before.target.image = some image → before.target.check image = .live)
    (hnewest : Newest owner s.world.livePatches) :
    Unchanged before (AutoAssembler.rollback s).2 := by
  have hready := h.ready hobliging hpin hlive hnewest
  have heffective : effective s.world owner s.info = s.info.originals := by
    unfold effective
    rw [h.noOverrides]
    rfl
  obtain ⟨n, hn, hcleanup⟩ := cleanup_ok hready
  rw [heffective, planHandovers_newest h.ownership hnewest] at hcleanup
  obtain ⟨w₁, hw₁⟩ : ∃ w₁, w₁ = (s.world.restored n s.info.originals s.info.protections).leave
    (some owner) := ⟨_, rfl⟩
  have hdone : cleanup s.info s.world =
      ({ success := true }, (freeAllocs s.info.allocs w₁).2.complete s.info) := by
    rw [hcleanup, hw₁]
    rfl
  have htarget : (AutoAssembler.rollback s).2.target =
      (freeAllocs s.info.allocs w₁).2.target := by
    unfold AutoAssembler.rollback
    rw [hdone]
    rfl
  have hw₁Obliging : w₁.target.Obliging := by
    rw [hw₁]
    exact hobliging.after hn
  obtain ⟨-, -, hpages⟩ := @freeAllocs_spec s.info.allocs w₁ h.flags
    (by rw [hw₁]; exact h.unreleased) (by rw [freeAllocs_ok hw₁Obliging])
  constructor
  · intro a ha hglobal
    rw [htarget, freeAllocs_mem, hw₁]
    exact h.bytes a ha hglobal
  · intro p
    rw [htarget, hpages]
    have hblocks : inBlocks w₁.target s.info.allocs p =
        inBlocks before.target s.info.allocs p := by
      unfold inBlocks
      rw [hw₁]
      simp only [covers_congr (show ((s.world.restored n s.info.originals
        s.info.protections).leave (some owner)).target.pageBits = before.target.pageBits
        from h.pageBits)]
    rw [hblocks]
    split
    · rename_i hin
      rw [h.fresh p hin]
    · rename_i hin
      rw [hw₁]
      exact h.protections p (Bool.eq_false_of_not_eq_true hin)

/-! ### The whole run -/

/-- No more is done to the target than what can be undone, and nothing waits for the end. -/
structure InProgress (notice : String) (owner : ℕ) (before : World) (s : Run) : Prop
    extends Undoable owner before s where
  deferred : s.deferredDeallocs = []
  livePatches : s.world.livePatches = before.livePatches
  sharing : notice ≠ "" → s.newGlobalBlocks = []

/-- A `globalalloc` finds its block mapped. -/
def Alloc.Shares (a : Alloc) (s : Run) : Prop :=
  a.global = true → sharedBlock s.world.tables s.info.image a ≠ none

theorem inProgress_runAlloc {notice : String} (h : InProgress notice owner before s) {a : Alloc}
    (hshares : notice ≠ "" → a.Shares s) :
    InProgress notice owner before (outcome (runAlloc owner a s)) := by
  refine ⟨undoable_runAlloc h.toUndoable a, ?_, ?_, ?_⟩
  · rcases runAlloc_cases owner a s with ⟨address, hrun⟩ | ⟨s', hrun, hp⟩ | ⟨address, -, hrun⟩
    · rw [hrun]
      exact h.deferred
    · unfold runAlloc at hrun ⊢
      split
      · exact h.deferred
      · split
        · exact h.deferred
        · split
          · rename_i hcall
            have hs := congrArg (fun result => result.2.deferredDeallocs) hcall
            exact hs.symm.trans h.deferred
          · rename_i hcall
            have hs := congrArg (fun result => result.2.deferredDeallocs) hcall
            exact hs.symm.trans h.deferred
    · rw [hrun]
      exact h.deferred
  · rcases runAlloc_cases owner a s with ⟨address, hrun⟩ | ⟨s', hrun, hp⟩ | ⟨address, -, hrun⟩
    · rw [hrun]
      exact h.livePatches
    · rw [hrun]
      exact hp.livePatches.trans h.livePatches
    · rw [hrun]
      exact h.livePatches
  · intro hnotice
    have hnone := h.sharing hnotice
    rcases runAlloc_cases owner a s with ⟨address, hrun⟩ | ⟨s', hrun, hp⟩ | ⟨address, -, hrun⟩
    · rw [hrun]
      exact hnone
    · rw [hrun]
      exact hp.newGlobalBlocks.trans hnone
    · cases hglobal : a.global with
      | false =>
        rw [hrun]
        change (if a.global then _ else s.newGlobalBlocks) = []
        rw [hglobal]
        exact hnone
      | true =>
        obtain ⟨shared, hshared⟩ := Option.ne_none_iff_exists'.mp (hshares hnotice hglobal)
        have hrun' : runAlloc owner a s =
            .ok { s with addresses := s.addresses ++ [(a, shared)] } := by
          unfold runAlloc
          rw [hshared]
        rw [hrun']
        exact hnone

/-- The line defers no `dealloc`. -/
def Line.isDealloc : Line → Bool
  | .dealloc _ => true
  | _ => false

theorem lineFrame_deferred :
    LineFrame fun s s' : Run => s'.deferredDeallocs = s.deferredDeallocs where
  frame := ⟨fun _ => rfl, fun hab hbc => Eq.trans hbc hab⟩
  call := fun _ _ _ => rfl
  fail := fun _ _ => rfl
  savePatch := fun _ _ => rfl
  saveProtection := fun _ _ _ _ => rfl

theorem inProgress_runLine {notice : String} (h : InProgress notice owner before s) {line : Line}
    (hline : line.isDealloc = false) (hspares : line.SparesCode s) :
    InProgress notice owner before (outcome (runLine line s)) := by
  have hpatched := patched_runLine line s
  refine ⟨undoable_runLine h.toUndoable hspares, ?_, hpatched.livePatches.trans h.livePatches, ?_⟩
  · refine (within_runLine lineFrame_deferred line (fun _ _ _ => rfl) ?_ s).trans h.deferred
    rintro names rfl
    cases hline
  · exact fun hnotice => hpatched.newGlobalBlocks.trans (h.sharing hnotice)

/-- What a rollback of the script covers, step by step: no line writes over recorded code from
inside a live globalalloc block; and where a hook left a text, so that the run fails at its end, no
new globalalloc block is mapped. -/
structure RunCovered (owner : ℕ) (script : Script) (start : Run) : Prop where
  blocks : Along (fun a s => script.notice ≠ "" → a.Shares s) (runAlloc owner) script.allocs start
  code : ∀ s, script.allocs.foldlM (fun s a => runAlloc owner a s) start = .ok s →
    Along Line.SparesCode runLine script.lines s

/-- Wherever the run of a script without `dealloc` ends, it can be undone. -/
theorem inProgress_runStages {script : Script} {start : Run}
    (h : InProgress script.notice owner before start)
    (hlines : ∀ line ∈ script.lines, line.isDealloc = false)
    (hcovered : RunCovered owner script start) :
    InProgress script.notice owner before (outcome (runStages owner script start)) := by
  unfold runStages
  split
  · exact { h with }
  · have hallocs := hcovered.blocks.invariant (I := InProgress script.notice owner before)
      (fun a _ s hs hshares => inProgress_runAlloc hs hshares) h
    cases hrun : script.allocs.foldlM (fun s a => runAlloc owner a s) start with
    | error s =>
      rw [hrun] at hallocs
      exact hallocs
    | ok s =>
      rw [hrun] at hallocs
      have hall := (hcovered.code s hrun).invariant (I := InProgress script.notice owner before)
        (fun line hline s hs hspares => inProgress_runLine hs (hlines line hline) hspares) hallocs
      change InProgress _ owner before (outcome
        (script.lines.foldlM (fun s line => runLine line s) s >>= fun s =>
          s.deferredDeallocs.foldlM (fun s name => runDealloc name s) s))
      cases hrun' : script.lines.foldlM (fun s line => runLine line s) s with
      | error s' =>
        rw [hrun'] at hall
        exact hall
      | ok s' =>
        rw [hrun'] at hall
        have hnone : s'.deferredDeallocs = [] := hall.deferred
        change InProgress _ owner before (outcome
          (s'.deferredDeallocs.foldlM (fun s name => runDealloc name s) s'))
        rw [hnone]
        exact hall

end steps

theorem forgetRetired_find (t : Target) (names : List String) (tables : Tables) :
    (∀ name entry, (names.foldl (Tables.forgetRetired t) tables).knownAllocations.find name =
        some entry → tables.knownAllocations.find name = some entry) ∧
      ∀ name ∈ (names.foldl (Tables.forgetRetired t) tables).globalAllocations,
        name ∈ tables.globalAllocations := by
  induction names generalizing tables with
  | nil => exact ⟨fun _ _ h => h, fun _ h => h⟩
  | cons other names ih =>
    obtain ⟨hknown, hglobals⟩ := ih (Tables.forgetRetired t tables other)
    have hstep : (∀ name entry,
        (Tables.forgetRetired t tables other).knownAllocations.find name = some entry →
          tables.knownAllocations.find name = some entry) ∧
        ∀ name ∈ (Tables.forgetRetired t tables other).globalAllocations,
          name ∈ tables.globalAllocations := by
      unfold Tables.forgetRetired
      split
      · exact ⟨fun _ _ h => h, fun _ h => h⟩
      · split
        · exact ⟨fun _ _ h => h, fun _ h => h⟩
        · rename_i known _ _
          have hkept : ∀ unregistered : Tables,
              unregistered.knownAllocations = tables.knownAllocations →
              unregistered.globalAllocations = tables.globalAllocations →
              (∀ name entry, (unregistered.knownAllocations.erase other).find name = some entry →
                tables.knownAllocations.find name = some entry) ∧
              ∀ name ∈ unregistered.globalAllocations.filter (· != other),
                name ∈ tables.globalAllocations := by
            intro unregistered hk hg
            rw [hk, hg]
            refine ⟨fun name entry hentry => ?_, fun name hname => (List.mem_filter.mp hname).1⟩
            rw [Table.find_erase] at hentry
            split at hentry
            · cases hentry
            · exact hentry
          dsimp only
          split
          · exact hkept (tables.unregister other) rfl rfl
          · exact hkept tables rfl rfl
    exact ⟨fun name entry h => hstep.1 name entry (hknown name entry h),
      fun name h => hstep.2 name (hglobals name h)⟩

theorem inProgress_start (w : World) (script : Script) :
    InProgress script.notice w.next w (w.start script) := by
  obtain ⟨hknown, hglobals⟩ := forgetRetired_find w.target w.tables.globalAllocations w.tables
  refine ⟨⟨ownBlocks_start w script, ?_, ?_, ?_, ⟨?_, ?_⟩, ?_, ?_, ?_⟩, rfl, rfl, fun _ => rfl⟩
  · intro name hname entry hentry
    exact Or.inr ⟨hglobals name hname, hknown name entry hentry⟩
  · exact fun _ _ _ => rfl
  · exact fun _ _ => rfl
  · exact fun patch hpatch => absurd hpatch List.not_mem_nil
  · exact fun patch hpatch => absurd hpatch List.not_mem_nil
  · exact fun patch hpatch => absurd hpatch List.not_mem_nil
  · exact fun patch hpatch => absurd hpatch List.not_mem_nil
  · exact fun patch hpatch => absurd hpatch List.not_mem_nil

theorem registerNames_blocks (addresses : List (Alloc × ℕ)) (names : List String)
    (tables : Tables) :
    (addresses.foldl Tables.registerGlobal
        (names.foldl Tables.unregister tables)).knownAllocations = tables.knownAllocations ∧
      (addresses.foldl Tables.registerGlobal
        (names.foldl Tables.unregister tables)).globalAllocations = tables.globalAllocations := by
  have hnames : (names.foldl Tables.unregister tables).knownAllocations =
      tables.knownAllocations ∧ (names.foldl Tables.unregister tables).globalAllocations =
      tables.globalAllocations := by
    induction names generalizing tables with
    | nil => exact ⟨rfl, rfl⟩
    | cons name names ih => exact ih (tables.unregister name)
  rw [← hnames.1, ← hnames.2]
  generalize names.foldl Tables.unregister tables = tables
  induction addresses generalizing tables with
  | nil => exact ⟨rfl, rfl⟩
  | cons a addresses ih =>
    have hone : (tables.registerGlobal a).knownAllocations = tables.knownAllocations ∧
        (tables.registerGlobal a).globalAllocations = tables.globalAllocations := by
      unfold Tables.registerGlobal
      split
      · exact ⟨rfl, rfl⟩
      · exact ⟨rfl, rfl⟩
    rw [← hone.1, ← hone.2]
    exact ih (tables.registerGlobal a)

/-- Names and symbols may differ; all that a rollback of the target reads is as it was. -/
structure Run.Named (s s' : Run) : Prop where
  target : s'.world.target = s.world.target
  livePatches : s'.world.livePatches = s.world.livePatches
  owners : s'.world.owners = s.world.owners
  newGlobalBlocks : s'.newGlobalBlocks = s.newGlobalBlocks

theorem undoable_registerSymbol {owner : ℕ} {before : World} (registered : List (String × ℕ))
    {s : Run} (h : Undoable owner before s) :
    Undoable owner before (registered.foldl (registerSymbol owner) s) ∧
      s.Named (registered.foldl (registerSymbol owner) s) := by
  induction registered generalizing s with
  | nil => exact ⟨h, rfl, rfl, rfl, rfl⟩
  | cons sym registered ih =>
    have hone : Undoable owner before (registerSymbol owner s sym) ∧
        s.Named (registerSymbol owner s sym) := by
      unfold registerSymbol
      split
      · exact ⟨h, rfl, rfl, rfl, rfl⟩
      · exact ⟨{ h with }, rfl, rfl, rfl, rfl⟩
    obtain ⟨hrest, hnamed⟩ := ih hone.1
    exact ⟨hrest, hnamed.target.trans hone.2.target, hnamed.livePatches.trans hone.2.livePatches,
      hnamed.owners.trans hone.2.owners, hnamed.newGlobalBlocks.trans hone.2.newGlobalBlocks⟩

theorem undoable_registerSymbols {owner : ℕ} {before : World} {s : Run}
    (h : Undoable owner before s) (script : Script) :
    Undoable owner before (s.registerSymbols owner script) ∧
      s.Named (s.registerSymbols owner script) := by
  obtain ⟨hk, hg⟩ := registerNames_blocks s.addresses s.deferredUnregisters s.world.tables
  obtain ⟨hundo, hnamed⟩ := undoable_registerSymbol script.registered
    (s := { s with world := { s.world with
      tables := s.addresses.foldl Tables.registerGlobal
        (s.deferredUnregisters.foldl Tables.unregister s.world.tables) } })
    { h with
      globals := by
        intro name hname entry hentry
        dsimp only at hname hentry
        rw [hg] at hname
        rw [hk] at hentry
        exact h.globals name hname entry hentry }
  exact ⟨hundo, hnamed.target, hnamed.livePatches, hnamed.owners, hnamed.newGlobalBlocks⟩

theorem undoable_register {owner : ℕ} {before : World} {s : Run} (h : Undoable owner before s)
    (hblocks : s.newGlobalBlocks = []) (hold : ∀ live ∈ s.world.livePatches, live.owner ≠ owner)
    (script : Script) :
    Undoable owner before (s.register owner script) ∧
      (s.register owner script).world.target = s.world.target ∧
      Newest owner (s.register owner script).world.livePatches := by
  obtain ⟨hundo, hnamed⟩ := undoable_registerSymbols h script
  have hfinal : s.register owner script =
      { s.registerSymbols owner script with
        world := (s.registerSymbols owner script).world.enlist owner
          (s.registerSymbols owner script).info } := by
    have hinfo : (s.registerSymbols owner script).info.withoutBlocks
        (s.registerSymbols owner script).newGlobalBlocks = (s.registerSymbols owner script).info := by
      unfold DisableInfo.withoutBlocks
      rw [hnamed.newGlobalBlocks, hblocks]
      simp
    unfold Run.register
    dsimp only
    rw [hinfo]
  rw [hfinal]
  generalize s.registerSymbols owner script = s₁ at hundo hnamed
  unfold World.enlist
  split
  · refine ⟨hundo, hnamed.target, s₁.world.livePatches, [], (List.append_nil _).symm, ?_,
      Nat.zero_le _⟩
    rw [hnamed.livePatches]
    exact hold
  · refine ⟨{ hundo with }, hnamed.target, s₁.world.dropComplete.livePatches,
      [s₁.info.livePatch owner s₁.world.target.pid], rfl, ?_, Nat.le_refl _⟩
    intro live hlive
    have hmem := (List.mem_filter.mp hlive).1
    rw [hnamed.livePatches] at hmem
    exact hold live hmem

/-! ### A failed run -/

/-- Undo records are shared pointers: a new one is in no list yet. -/
def World.Numbered (w : World) : Prop :=
  ∀ live ∈ w.livePatches, live.owner < w.next

theorem failed_run_restores_target {w : World} {script : Script} (hnumbered : w.Numbered)
    (hpin : w.target.PinsItself) (hlines : ∀ line ∈ script.lines, line.isDealloc = false)
    (hcovered : RunCovered w.next script (w.start script))
    (hfails : (execute script w).1.success = false)
    (hobliging : (outcome (runStages w.next script (w.start script))).world.target.Obliging) :
    Unchanged w (execute script w).2 := by
  have hlive := @pin_ok w.target
  have hstop := inProgress_runStages (inProgress_start w script) hlines hcovered
  have hold : ∀ live ∈ w.livePatches, live.owner ≠ w.next :=
    fun live hmem => Nat.ne_of_lt (hnumbered live hmem)
  unfold execute at hfails ⊢
  rcases hcall : w.newOwnership.call pin with ⟨pinned, started⟩
  have hstarted : started = (w.newOwnership.call pin).2 := by rw [hcall]
  rw [hcall] at hfails
  cases pinned with
  | error r =>
    dsimp only
    rw [hstarted]
    exact ⟨fun _ _ _ => rfl, fun _ => rfl⟩
  | ok x =>
    have hstart : started.begin w.next script = w.start script := by rw [hstarted]; rfl
    have hpinned : (pin w.target).1 = .ok x := congrArg Prod.fst hcall
    dsimp only at hfails ⊢
    rw [hstart] at hfails ⊢
    cases hrun : runStages w.next script (w.start script) with
    | error s =>
      rw [hrun] at hstop hobliging
      refine hstop.toUndoable.rollback hobliging hpin (hlive hpinned)
        ⟨s.world.livePatches, [], (List.append_nil _).symm, ?_, Nat.zero_le _⟩
      rw [show s.world.livePatches = w.livePatches from hstop.livePatches]
      exact hold
    | ok s =>
      rw [hrun] at hstop hobliging hfails
      change InProgress script.notice w.next w s at hstop
      have herror : s.error = script.notice := sameError_runStages w.next script _ s hrun
      have hregister := register_error s w.next script
      dsimp only at hfails ⊢
      split at hfails
      · cases hfails
      · -- only a text that a hook left makes a run fail that came to its end
        rename_i htext
        rw [if_neg htext]
        rw [hregister, herror] at htext
        obtain ⟨hundo, htarget, hnewest⟩ := undoable_register hstop.toUndoable
          (hstop.sharing htext) (by rw [hstop.livePatches]; exact hold) script
        refine hundo.rollback ?_ hpin (hlive hpinned) hnewest
        rw [htarget]
        exact hobliging

/-- Two executable pages, the first of them a globalalloc block. -/
def codeTarget : Target where
  mem := fun _ => 0
  pages := fun p => if p = 16 ∨ p = 17 then some MemProt.all else none
  pageBits := 12
  pid := 7
  image := none
  check := fun _ => .live
  isX86 := fun _ => true
  reply := fun _ => { region := some ⟨0x10000, 0x2000, MemProt.all⟩ }
  clock := 0

def codeWorld : World where
  target := codeTarget
  tables :=
    { knownAllocations := [("shared", ⟨"shared", 0x10000, 0x1000, 0, 1, none⟩)]
      globalAllocations := ["shared"] }
  next := 2

theorem codeWorld_numbered : codeWorld.Numbered :=
  fun _ hlive => absurd hlive List.not_mem_nil

theorem codeWorld_pinsItself : codeWorld.target.PinsItself := by
  intro image himage
  cases himage

/-- Code across the end of the block, and then a line that fails. -/
def acrossScript : Script where
  lines := [.code 0x10ffe [0x90, 0x90, 0x90, 0x90], .refuse "No active assembly address"]

theorem failed_run_restores_target_across :
    (execute acrossScript codeWorld).1.success = false ∧
      Unchanged codeWorld (execute acrossScript codeWorld).2 := by
  have hfails : (execute acrossScript codeWorld).1.success = false := by decide +kernel
  refine ⟨hfails, failed_run_restores_target codeWorld_numbered codeWorld_pinsItself ?_ ⟨?_, ?_⟩
    hfails ?_⟩
  · decide
  · exact trivial
  · intro s hs
    cases hs
    refine ⟨?_, fun s' _ => ⟨trivial, fun s'' hs'' => trivial⟩⟩
    intro _ patch hpatch
    exact absurd hpatch List.not_mem_nil
  · exact obliging_runStages _ _ fun _ => ⟨rfl, rfl, rfl⟩

/-- The same with a write inside the block over the recorded code. -/
def overScript : Script where
  lines := [.code 0x10ffe [0x90, 0x90, 0x90, 0x90], .code 0x10ffe [0xc3],
    .refuse "No active assembly address"]

theorem failed_run_leaves_patch :
    codeWorld.Numbered ∧ codeWorld.target.PinsItself ∧
      (∀ line ∈ overScript.lines, line.isDealloc = false) ∧
      (execute overScript codeWorld).1.success = false ∧
      (outcome (runStages codeWorld.next overScript
        (codeWorld.start overScript))).world.target.Obliging ∧
      ¬ Unchanged codeWorld (execute overScript codeWorld).2 := by
  refine ⟨codeWorld_numbered, codeWorld_pinsItself, by decide, by decide +kernel,
    obliging_runStages _ _ fun _ => ⟨rfl, rfl, rfl⟩, ?_⟩
  intro h
  have hchanged : (execute overScript codeWorld).2.target.mem 0x11000 = 0x90 := by decide +kernel
  have hsame := h.bytes 0x11000 (by decide) (by decide)
  rw [hchanged] at hsame
  exact absurd hsame (by decide)

end CheatEngine.AutoAssembler
