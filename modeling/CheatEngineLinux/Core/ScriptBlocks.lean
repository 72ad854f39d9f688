import CheatEngineLinux.Core.ScriptRun

/-!
# The blocks a run maps

What holds of a run in progress whatever its names are: its blocks are fresh pages, their leases
are open, and everything else is mapped as before.

* `OwnBlocks`: the run's own blocks over the mappings before it.

* **PROVED `ownBlocks_allocated`**: one more block keeps `OwnBlocks`.
* **PROVED `freeAllocs_spec`**: frees that all succeed leave the mappings without the blocks.
-/

namespace CheatEngine.AutoAssembler

open ByteOverlay Stages

/-! ### Whole pages -/

theorem rounded_div {ps address size : ℕ} (hps : 0 < ps) (hpos : 0 < size)
    (haligned : address % ps = 0) :
    (address + (size + (ps - size % ps) % ps) - 1) / ps = (address + size - 1) / ps := by
  obtain ⟨k, rfl⟩ := Nat.dvd_of_mod_eq_zero haligned
  obtain ⟨q, r, hr, rfl⟩ : ∃ q r, r < ps ∧ size = ps * q + r :=
    ⟨size / ps, size % ps, Nat.mod_lt _ hps, (Nat.div_add_mod size ps).symm⟩
  have hmod : (ps * q + r) % ps = r := by
    rw [Nat.mul_add_mod, Nat.mod_eq_of_lt hr]
  rw [hmod]
  by_cases hzero : r = 0
  · rw [hzero, Nat.sub_zero, Nat.mod_self, Nat.add_zero]
  · rw [Nat.mod_eq_of_lt (show ps - r < ps by omega)]
    have hsum : (k + q) * ps = ps * k + ps * q := by
      rw [Nat.add_mul, Nat.mul_comm k, Nat.mul_comm q]
    have hnext : (k + q + 1) * ps = ps * k + ps * q + ps := by
      rw [Nat.add_mul, hsum, Nat.one_mul]
    rw [Nat.div_eq_of_lt_le (m := ps * k + (ps * q + r + (ps - r)) - 1) (k := k + q)
        (by omega) (by omega),
      Nat.div_eq_of_lt_le (m := ps * k + (ps * q + r) - 1) (k := k + q) (by omega) (by omega)]

theorem covers_mappedSize {t : Target} {image : Option Image} {address size : ℕ}
    (hpos : 0 < size) (haligned : address % 2 ^ t.pageBits = 0) (p : ℕ) :
    t.covers address (mappedSize t image size) p = t.covers address size p := by
  unfold mappedSize
  split
  · unfold Target.covers Target.page
    rw [rounded_div (Nat.two_pow_pos _) hpos haligned,
      decide_eq_true hpos, decide_eq_true (Nat.lt_of_lt_of_le hpos (Nat.le_add_right _ _))]
  · rfl

/-! ### The run's own blocks -/

def inBlocks (t : Target) (allocs : List AllocEntry) (p : ℕ) : Bool :=
  allocs.any fun a => t.covers a.address a.size p

theorem inBlocks_append (t : Target) (allocs : List AllocEntry) (a : AllocEntry) (p : ℕ) :
    inBlocks t (allocs ++ [a]) p = (inBlocks t allocs p || t.covers a.address a.size p) := by
  simp [inBlocks]

structure OwnBlocks (owner : ℕ) (before : World) (s : Run) : Prop where
  ownership : s.info.ownership = some owner
  opened : (s.world.owners owner).complete = false
  noOverrides : (s.world.owners owner).restoreOverrides = []
  image : s.info.image = before.target.image
  flags : (s.info.allocs.map AllocEntry.released).Nodup
  flagsBelow : ∀ a ∈ s.info.allocs, a.released < s.world.next
  unreleased : ∀ a ∈ s.info.allocs, s.world.released a.released = false
  check : s.world.target.check = before.target.check
  pid : s.world.target.pid = before.target.pid
  pageBits : s.world.target.pageBits = before.target.pageBits
  mapped : ∀ p, (s.world.target.pages p).isSome =
    ((before.target.pages p).isSome || inBlocks before.target s.info.allocs p)
  fresh : ∀ p, inBlocks before.target s.info.allocs p = true → before.target.pages p = none

theorem OwnBlocks.of_patched {owner : ℕ} {before : World} {s s' : Run}
    (h : OwnBlocks owner before s) (hp : s.Patched s') : OwnBlocks owner before s' where
  ownership := by rw [hp.record.ownership, h.ownership]
  opened := by rw [hp.owners, h.opened]
  noOverrides := by rw [hp.owners, h.noOverrides]
  image := by rw [hp.record.image, h.image]
  flags := by rw [hp.record.allocs]; exact h.flags
  flagsBelow := by rw [hp.record.allocs, hp.next]; exact h.flagsBelow
  unreleased := by rw [hp.record.allocs, hp.released]; exact h.unreleased
  check := by rw [hp.target.check, h.check]
  pid := by rw [hp.target.pid, h.pid]
  pageBits := by rw [hp.target.pageBits, h.pageBits]
  mapped := by
    intro p
    rw [hp.target.mapped, hp.record.allocs]
    exact h.mapped p
  fresh := by rw [hp.record.allocs]; exact h.fresh

theorem OwnBlocks.covers_entry {owner : ℕ} {before : World} {s : Run}
    (h : OwnBlocks owner before s) {address size : ℕ}
    (hfits : s.world.target.fits address size = true) (p : ℕ) :
    before.target.covers address (mappedSize s.world.target s.info.image size) p =
      s.world.target.covers address size p := by
  obtain ⟨hpos, haligned, -⟩ := fits_spec hfits
  rw [← covers_congr h.pageBits]
  exact covers_mappedSize hpos haligned p

theorem ownBlocks_allocated {owner : ℕ} {before : World} {s : Run} (h : OwnBlocks owner before s)
    {a : Alloc} {address : ℕ} (hfits : s.world.target.fits address a.size = true) :
    OwnBlocks owner before ((s.mapNew address a.size).allocated owner a address) := by
  obtain ⟨-, -, hfree⟩ := fits_spec hfits
  obtain ⟨entry, hentry⟩ : ∃ entry : AllocEntry, entry = ⟨a.name, address,
      mappedSize (s.mapNew address a.size).world.target s.info.image a.size, s.world.next, owner,
      s.info.image⟩ := ⟨_, rfl⟩
  have hcovers : ∀ p, before.target.covers entry.address entry.size p =
      s.world.target.covers address a.size p := by
    intro p
    rw [hentry]
    exact h.covers_entry hfits p
  have hallocs : ((s.mapNew address a.size).allocated owner a address).info.allocs =
      s.info.allocs ++ [entry] := by rw [hentry]; rfl
  refine ⟨h.ownership, h.opened, h.noOverrides, h.image, ?_, ?_, ?_, h.check, h.pid, h.pageBits,
    ?_, ?_⟩
  · rw [hallocs, List.map_append, List.nodup_append]
    refine ⟨h.flags, by simp, ?_⟩
    intro x hx y hy
    obtain ⟨b, hb, rfl⟩ := List.mem_map.mp hx
    have := h.flagsBelow b hb
    rw [List.map_singleton, List.mem_singleton] at hy
    rw [hy, hentry]
    dsimp only
    omega
  · rw [hallocs]
    intro b hb
    change b.released < s.world.next + 1
    rcases List.mem_append.mp hb with hb | hb
    · exact Nat.lt_succ_of_lt (h.flagsBelow b hb)
    · rw [List.mem_singleton.mp hb, hentry]
      exact Nat.lt_succ_self _
  · rw [hallocs]
    intro b hb
    change Function.update s.world.released s.world.next false b.released = false
    rcases List.mem_append.mp hb with hb | hb
    · rw [Function.update_of_ne (Nat.ne_of_lt (h.flagsBelow b hb))]
      exact h.unreleased b hb
    · rw [List.mem_singleton.mp hb, hentry]
      exact Function.update_self _ _ _
  · intro p
    rw [hallocs, inBlocks_append, hcovers, ← Bool.or_assoc, ← h.mapped]
    change Option.isSome (if s.world.target.covers address a.size p then _ else _) = _
    split
    · rename_i hp
      rw [hp, Bool.or_true, Option.isSome_some]
    · rename_i hp
      rw [Bool.eq_false_of_not_eq_true hp, Bool.or_false]
  · intro p
    rw [hallocs, inBlocks_append, hcovers, Bool.or_eq_true]
    rintro (hp | hp)
    · exact h.fresh p hp
    · have hmapped := h.mapped p
      rw [hfree p hp, Option.isSome_none] at hmapped
      rw [← Option.not_isSome_iff_eq_none]
      intro hsome
      rw [hsome, Bool.true_or] at hmapped
      cases hmapped

/-! ### Names of globalalloc blocks -/

theorem contains_track (tables : Tables) (global : Bool) (entry : AllocEntry) (name : String) :
    (tables.track global entry).globalAllocations.contains name =
      (tables.globalAllocations.contains name || (global && entry.name == name)) := by
  unfold Tables.track
  dsimp only
  by_cases hname : entry.name = name
  · rw [hname, beq_self_eq_true, Bool.and_true]
    split
    · rename_i h
      rw [Bool.and_eq_true] at h
      simp [h.1]
    · rename_i h
      cases global with
      | false => simp
      | true => simpa using h
  · rw [beq_false_of_ne hname, Bool.and_false, Bool.or_false]
    split
    · simp [Ne.symm hname]
    · rfl

/-! ### The start of a run -/

def World.start (w : World) (script : Script) : Run :=
  (w.newOwnership.call pin).2.begin w.next script

theorem pin_ok {t : Target} {x : Unit} (h : (pin t).1 = .ok x) :
    ∀ image, t.image = some image → t.check image = .live := by
  intro image himage
  unfold pin at h
  dsimp only at h
  rw [himage, Option.any_some] at h
  split at h
  · cases h
  · rename_i hpin
    rw [Bool.or_eq_true, not_or, bne_iff_ne, not_ne_iff] at hpin
    exact hpin.2

theorem ownBlocks_start (w : World) (script : Script) : OwnBlocks w.next w (w.start script) := by
  have hrecord : (w.start script).world.owners w.next = {} := Function.update_self _ _ _
  refine ⟨rfl, by rw [hrecord], by rw [hrecord], rfl, List.nodup_nil, ?_, ?_, rfl, rfl, rfl,
    ?_, ?_⟩
  · exact fun a ha => absurd ha List.not_mem_nil
  · exact fun a ha => absurd ha List.not_mem_nil
  · exact fun p => (Bool.or_false _).symm
  · intro p hp
    cases hp

/-! ### Freeing the run's blocks -/

theorem addError_eq_empty {error rest : String} (h : addError error rest = "") :
    error = "" ∧ rest = "" := by
  unfold addError at h
  split at h
  · exact ⟨by assumption, h⟩
  · split at h
    · exact absurd h (by assumption)
    · rename_i h₁ h₂
      rw [String.append_eq_empty_iff, String.append_eq_empty_iff] at h
      exact absurd h.1.1 h₁

theorem freeAllocs_spec {allocs : List AllocEntry} {w : World}
    (hflags : (allocs.map AllocEntry.released).Nodup)
    (hunreleased : ∀ a ∈ allocs, w.released a.released = false)
    (herror : (freeAllocs allocs w).1.2 = "") :
    (freeAllocs allocs w).2.tables = allocs.foldl Tables.forget w.tables ∧
      (freeAllocs allocs w).2.target.pageBits = w.target.pageBits ∧
      ∀ p, (freeAllocs allocs w).2.target.pages p =
        if inBlocks w.target allocs p then none else w.target.pages p := by
  induction allocs generalizing w with
  | nil => exact ⟨rfl, rfl, fun p => rfl⟩
  | cons a allocs ih =>
    rw [List.map_cons, List.nodup_cons] at hflags
    have ha := hunreleased a List.mem_cons_self
    unfold freeAllocs at herror ⊢
    rw [ha] at herror ⊢
    simp only [Bool.false_eq_true, if_false] at herror ⊢
    by_cases hfails : (w.target.reply w.target.clock).fails = true
    · have hcall : w.call (free a.address a.size) =
          (.error (w.target.reply w.target.clock), (w.call tryLock).2) := by
        unfold World.call free
        simp only [hfails, if_true]
        rfl
      rw [hcall] at herror
      dsimp only at herror
      have hnonempty := (addError_eq_empty herror).1
      rw [String.append_eq_empty_iff, String.append_eq_empty_iff,
        String.append_eq_empty_iff] at hnonempty
      exact absurd hnonempty.1.1.1 (by decide)
    · obtain ⟨freed, hfreed⟩ : ∃ freed : Target, freed = { w.target.tick with
          pages := fun p => if w.target.covers a.address a.size p then none
            else w.target.pages p } := ⟨_, rfl⟩
      have hcall : w.call (free a.address a.size) = (.ok (), { w with target := freed }) := by
        unfold World.call free
        simp only [hfails, Bool.false_eq_true, if_false, hfreed]
      rw [hcall] at herror ⊢
      dsimp only at herror ⊢
      have hrest : ∀ b ∈ allocs,
          (({ w with target := freed } : World).release a).released b.released = false := by
        intro b hb
        have hne : b.released ≠ a.released := fun heq =>
          hflags.1 (heq ▸ List.mem_map_of_mem hb)
        change Function.update w.released a.released true b.released = false
        rw [Function.update_of_ne hne]
        exact hunreleased b (List.mem_cons_of_mem _ hb)
      obtain ⟨htables, hbits, hpages⟩ := ih hflags.2 hrest herror
      have hfreedBits : freed.pageBits = w.target.pageBits := by rw [hfreed]; rfl
      refine ⟨htables, hbits.trans hfreedBits, ?_⟩
      intro p
      rw [hpages p]
      have hblocks : inBlocks freed allocs p = inBlocks w.target allocs p := by
        unfold inBlocks
        simp only [covers_congr hfreedBits]
      change (if inBlocks freed allocs p then none else freed.pages p) =
        if (w.target.covers a.address a.size p || inBlocks w.target allocs p) then none else _
      rw [hblocks, hfreed]
      dsimp only
      by_cases h₁ : inBlocks w.target allocs p = true
      · rw [h₁, Bool.or_true, if_pos rfl, if_pos rfl]
      · rw [Bool.eq_false_of_not_eq_true h₁, Bool.or_false]
        rfl

end CheatEngine.AutoAssembler
