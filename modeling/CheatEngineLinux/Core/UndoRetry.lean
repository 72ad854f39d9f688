import CheatEngineLinux.Core.UndoRecord

/-!
# Retrying an undo

`AutoAssembler::cleanup` may be called again after it has failed.  Its writes, protections and
frees may end in any way; what it looks at, it sees.

* `Seen`: the calls of a look met no obstacle; `Observes`: a look tells no more than such calls do.
* `Sighted`: an undo that sees what it looks at.
* `Retryable`: an undo record that can be tried again and again.
* **PROVED `inspection_eq_none`**: such an undo is not refused for the code it finds.
* **PROVED `cleanup_restored`**: it brings the bytes of before back, or leaves a record that can be
  tried again.
-/

namespace CheatEngine.AutoAssembler

open ByteOverlay Stages

/-! ### Looking -/

/-- The call meets no obstacle; another thread may be busy. -/
structure Reply.Clear (r : Reply) : Prop where
  fails : r.fails = false
  count : r.count = none

instance (r : Reply) : Decidable r.Clear :=
  decidable_of_iff (r.fails = false ∧ r.count = none)
    ⟨fun h => ⟨h.1, h.2⟩, fun h => ⟨h.fails, h.count⟩⟩

/-- No call of the look met an obstacle. -/
def Seen {α : Type} (m : Op α) (t : Target) : Prop :=
  ∀ n, t.clock ≤ n → n < (m t).2.clock → (t.reply n).Clear

instance {α : Type} (m : Op α) (t : Target) : Decidable (Seen m t) :=
  decidable_of_iff (∀ n < (m t).2.clock, t.clock ≤ n → (t.reply n).Clear)
    ⟨fun h n hn hn' => h n hn' hn, fun h n hn' hn => h n hn hn'⟩

def Target.answering (t : Target) (reply : ℕ → Reply) : Target :=
  { t with reply := reply }

/-- Where its calls meet no obstacle, a look finds what it would find with other such answers about
the same regions. -/
structure Observes {α : Type} (m : Op α) : Prop where
  looked : Moves Target.Looked m
  same : ∀ t reply, Seen m t → (∀ n, t.clock ≤ n → n < (m t).2.clock →
    (reply n).Clear ∧ (reply n).region = (t.reply n).region) →
      m (t.answering reply) = ((m t).1, (m t).2.answering reply)

section observes

variable {α β : Type} {m : Op α} {t : Target}

theorem clock_le_of_looked (h : Moves Target.Looked m) (t : Target) :
    t.clock ≤ (m t).2.clock := by
  obtain ⟨n, hn, hnext⟩ := h t
  rw [hnext]
  exact hn

theorem reply_of_looked (h : Moves Target.Looked m) (t : Target) : (m t).2.reply = t.reply := by
  obtain ⟨n, -, hnext⟩ := h t
  rw [hnext]
  rfl

theorem observes_pure (x : α) : Observes (pure x : Op α) where
  looked := Moves.pure frame_looked x
  same := fun _ _ _ _ => rfl

theorem observes_bind {f : α → Op β} (hm : Observes m) (hf : ∀ x, Observes (f x)) :
    Observes (m >>= f) where
  looked := Moves.bind frame_looked hm.looked fun x => (hf x).looked
  same := by
    intro t reply hseen hreply
    have hfirst := clock_le_of_looked hm.looked t
    have hlast := clock_le_of_looked (hf (m t).1).looked (m t).2
    have hkept := reply_of_looked hm.looked t
    rw [bind_apply] at hreply ⊢
    have hseen' : ∀ n, t.clock ≤ n → n < (f (m t).1 (m t).2).2.clock → (t.reply n).Clear := hseen
    rw [hm.same t reply (fun n hn hn' => hseen' n hn (Nat.lt_of_lt_of_le hn' hlast))
      fun n hn hn' => hreply n hn (Nat.lt_of_lt_of_le hn' hlast)]
    dsimp only
    rw [(hf (m t).1).same (m t).2 reply (fun n hn hn' => ?_) fun n hn hn' => ?_]
    · rfl
    · rw [hkept]
      exact hseen' n (Nat.le_trans hfirst hn) hn'
    · rw [hkept]
      exact hreply n (Nat.le_trans hfirst hn) hn'

theorem observes_ite {p : Prop} [Decidable p] {m m' : Op α} (hm : Observes m)
    (hm' : Observes m') : Observes (if p then m else m') := by
  split
  · exact hm
  · exact hm'

theorem observes_read (address size : ℕ) : Observes (read address size) where
  looked := looked_read address size
  same := by
    intro t reply hseen hreply
    obtain ⟨hfails, hcount⟩ := hseen t.clock (Nat.le_refl _) (Nat.lt_succ_self _)
    obtain ⟨⟨hfails', hcount'⟩, -⟩ := hreply t.clock (Nat.le_refl _) (Nat.lt_succ_self _)
    have hanswer : (t.answering reply).reply (t.answering reply).clock = reply t.clock := rfl
    unfold read
    dsimp only
    rw [hanswer, hfails, hfails', Reply.limit, Reply.limit, hcount, hcount']
    rfl

theorem observes_queryRegion (address : ℕ) : Observes (queryRegion address) where
  looked := looked_queryRegion address
  same := by
    intro t reply hseen hreply
    obtain ⟨-, hregion⟩ := hreply t.clock (Nat.le_refl _) (Nat.lt_succ_self _)
    unfold queryRegion
    have hanswer : (t.answering reply).reply (t.answering reply).clock = reply t.clock := rfl
    dsimp only
    rw [hanswer, hregion]
    rfl

theorem observes_keep {f : α → Op Bool} (hf : ∀ x, Observes (f x)) (xs : List α) :
    Observes (keep f xs) := by
  induction xs with
  | nil => exact observes_pure _
  | cons x xs ih =>
    exact observes_bind (hf x) fun kept => observes_bind ih fun rest => observes_pure _

theorem observes_firstSome {f : α → Op (Option β)} (hf : ∀ x, Observes (f x)) (xs : List α) :
    Observes (firstSome f xs) := by
  induction xs with
  | nil => exact observes_pure _
  | cons x xs ih =>
    refine observes_bind (hf x) fun found => ?_
    cases found with
    | none => exact ih
    | some y => exact observes_pure _

/-- A look that was not hindered has told what one finds that cannot be. -/
theorem Observes.obliging (h : Observes m) (hseen : Seen m t) :
    ∃ reply, (t.answering reply).Obliging ∧ (m (t.answering reply)).1 = (m t).1 := by
  refine ⟨fun n => { region := (t.reply n).region }, fun n _ => ⟨rfl, rfl, rfl⟩, ?_⟩
  have hsame := h.same t (fun n => { region := (t.reply n).region }) hseen
    fun n _ _ => ⟨⟨rfl, rfl⟩, rfl⟩
  rw [hsame]

end observes

theorem observes_isMapped (address size : ℕ) : Observes (isMapped address size) := by
  refine observes_bind (observes_read _ _) fun found => ?_
  have hregion : Observes (do
      let region ← queryRegion address
      return region.any fun r => decide (r.base ≤ address) &&
        decide (address - r.base < r.size)) :=
    observes_bind (observes_queryRegion _) fun _ => observes_pure _
  rcases found with r | _ | ⟨b, bs⟩
  · exact hregion
  · exact hregion
  · exact observes_pure _

theorem observes_codeOwnershipConflict (released : ℕ → Bool) (originals : List OriginalBytes) :
    Observes (codeOwnershipConflict released originals) := by
  refine observes_firstSome (fun patch => observes_ite (observes_pure _)
    (observes_firstSome (fun piece => ?_) _)) _
  refine observes_bind (observes_read _ _) fun found => ?_
  cases found with
  | error r => exact observes_pure _
  | ok actual => exact observes_ite (observes_pure _) (observes_pure _)

theorem observes_firstMismatch (released : ℕ → Bool) (originals : List OriginalBytes) :
    Observes (firstMismatch released originals) := by
  refine observes_firstSome (fun range => observes_firstSome (fun piece => ?_) _) _
  refine observes_bind (observes_read _ _) fun found => ?_
  cases found with
  | error r => exact observes_pure _
  | ok actual => exact observes_pure _

/-! ### What an undo sees -/

section looks

variable {C : ℕ → Prop} {m₀ : ℕ → UInt8} {released : ℕ → Bool} {originals : List OriginalBytes}
  {t t' : Target}

theorem restorable_answering (h : Restorable released originals t) (reply : ℕ → Reply) :
    Restorable released originals (t.answering reply) :=
  ⟨h.unreleased, h.mapped⟩

theorem no_conflict (h : Undoes C m₀ released originals t)
    (hcovered : ∀ patch ∈ originals, ∀ a, patch.address ≤ a →
      a < patch.address + patch.bytes.length → C a)
    (hseen : Seen (codeOwnershipConflict released originals) t) :
    (codeOwnershipConflict released originals t).1 = none := by
  obtain ⟨reply, hobliging, hsame⟩ :=
    (observes_codeOwnershipConflict released originals).obliging hseen
  rw [← hsame]
  exact codeOwnershipConflict_eq_none hobliging (fun p hp _ => h.patches.mapped p hp)
    fun p hp hverify a ha ha' => h.verified p hp hverify a ha ha' (hcovered p hp a ha ha')

theorem in_place (h : Undoes C m₀ released originals t)
    (hseen : Seen (firstMismatch released originals) t)
    (hnone : (firstMismatch released originals t).1 = none) {a : ℕ} (hC : C a) :
    t.mem a = m₀ a := by
  obtain ⟨reply, hobliging, hsame⟩ := (observes_firstMismatch released originals).obliging hseen
  rw [← hsame] at hnone
  have hplace := (firstMismatch_eq_none (restorable_answering h.patches reply) hobliging).mp hnone
  rw [← h.restores a hC]
  unfold restoredMem
  cases hsaved : savedAt originals a with
  | none => rfl
  | some b => exact hplace a b hsaved

theorem undoes_of_looked (h : Undoes C m₀ released originals t) (hs : t.Looked t') :
    Undoes C m₀ released originals t' := by
  refine h.steady hs.steady ?_
  obtain ⟨n, -, rfl⟩ := hs
  rfl

theorem undoes_restorePatch (h : Undoes C m₀ released originals t) {patch : OriginalBytes}
    (hpatch : patch ∈ originals) :
    Undoes C m₀ released originals (restorePatch released patch t).2 := by
  unfold restorePatch
  split
  · exact h
  · rw [bind_apply]
    have hlooked := undoes_of_looked h (looked_queryRegion patch.address t)
    generalize (queryRegion patch.address t).2 = t₁ at hlooked
    rw [bind_apply]
    obtain ⟨n, -, hnext⟩ := write_target patch.address patch.bytes t₁
    have hwritten := undoes_write hlooked (steady_write patch.address patch.bytes t₁)
      (congrArg Target.mem hnext) fun a b _ hbyte =>
        ⟨patch, hpatch, Option.isSome_of_eq_some hbyte, .inl hbyte⟩
    cases (write patch.address patch.bytes t₁).1 with
    | ok n => exact hwritten
    | error r => exact hwritten

theorem undoes_restoreAll (h : Undoes C m₀ released originals t) {patches : List OriginalBytes}
    (hpatches : ∀ patch ∈ patches, patch ∈ originals) :
    Undoes C m₀ released originals (collectErrors (restorePatch released) patches t).2 := by
  induction patches generalizing t with
  | nil => exact h
  | cons patch patches ih =>
    exact ih (undoes_restorePatch h (hpatches patch List.mem_cons_self))
      fun p hp => hpatches p (List.mem_cons_of_mem _ hp)

/-- Both checks of the restored bytes see them. -/
structure RestoreSeen (released : ℕ → Bool) (originals : List OriginalBytes) (t : Target) :
    Prop where
  before : Seen (firstMismatch released originals) t
  after : Seen (firstMismatch released originals)
    (collectErrors (restorePatch released) originals.reverse
      (firstMismatch released originals t).2).2

instance (released : ℕ → Bool) (originals : List OriginalBytes) (t : Target) :
    Decidable (RestoreSeen released originals t) :=
  decidable_of_iff (Seen (firstMismatch released originals) t ∧
      Seen (firstMismatch released originals)
        (collectErrors (restorePatch released) originals.reverse
          (firstMismatch released originals t).2).2)
    ⟨fun h => ⟨h.1, h.2⟩, fun h => ⟨h.before, h.after⟩⟩

/-- **The undo's writes**, however they end: without an error the bytes of before are back. -/
theorem restoreBytes_spec (h : Undoes C m₀ released originals t)
    (hseen : RestoreSeen released originals t) :
    Undoes C m₀ released originals (restoreBytes released originals t).2 ∧
      ((restoreBytes released originals t).1 = "" →
        ∀ a, C a → (restoreBytes released originals t).2.mem a = m₀ a) := by
  obtain ⟨hbefore, hafter⟩ := hseen
  have hlooked := looked_firstMismatch released originals t
  have hfirst := undoes_of_looked h hlooked
  unfold restoreBytes
  rw [bind_apply]
  cases hfound : (firstMismatch released originals t).1 with
  | none =>
    refine ⟨hfirst, fun _ a hC => ?_⟩
    have hplace := in_place h hbefore hfound hC
    obtain ⟨n, -, hnext⟩ := hlooked
    change (firstMismatch released originals t).2.mem a = m₀ a
    rw [hnext]
    exact hplace
  | some a =>
    dsimp only
    have hwritten := @undoes_restoreAll C m₀ released originals _ hfirst originals.reverse
      fun p hp => List.mem_reverse.mp hp
    rw [bind_apply]
    generalize collectErrors (restorePatch released) originals.reverse
      (firstMismatch released originals t).2 = answer at hafter hwritten ⊢
    obtain ⟨error, t₁⟩ := answer
    dsimp only at hafter hwritten ⊢
    have hlast := looked_firstMismatch released originals t₁
    have hchecked := undoes_of_looked hwritten hlast
    rw [bind_apply]
    cases hagain : (firstMismatch released originals t₁).1 with
    | none =>
      refine ⟨hchecked, fun _ a hC => ?_⟩
      have hplace := in_place hwritten hafter hagain hC
      obtain ⟨n, -, hnext⟩ := hlast
      change (firstMismatch released originals t₁).2.mem a = m₀ a
      rw [hnext]
      exact hplace
    | some b =>
      refine ⟨hchecked, fun herror => ?_⟩
      have hlength := congrArg String.length (addError_eq_empty herror).2
      rw [String.length_append] at hlength
      exact absurd hlength (by simp)

end looks

/-! ### One undo -/

/-- What the undo works with: patches that are mapped, with what was handed over. -/
def undoRecord (owner : ℕ) (saved : DisableInfo) (w : World) : DisableInfo :=
  let info := (withoutUnmapped saved w.target).1
  { info with originals := effective w owner info }

/-- The target when the undo looks at the code. -/
def inspected (owner : ℕ) (saved : DisableInfo) (w : World) : Target :=
  (threadConflict w.released (undoRecord owner saved w)
    (tryLock (withoutUnmapped saved w.target).2).2).2

/-- What the undo finds out about the code, and the target after that. -/
def inspection (owner : ℕ) (saved : DisableInfo) (w : World) : Option String × Target :=
  codeOwnershipConflict w.released (undoRecord owner saved w).originals (inspected owner saved w)

/-- The undo sees the mappings, the code and the bytes it restores. -/
structure Sighted (owner : ℕ) (saved : DisableInfo) (w : World) : Prop where
  mappings : Seen (withoutUnmapped saved) w.target
  code : Seen (codeOwnershipConflict w.released (undoRecord owner saved w).originals)
    (inspected owner saved w)
  bytes : RestoreSeen w.released
    (planHandovers w.dropComplete (undoRecord owner saved w)).2 (inspection owner saved w).2

instance (owner : ℕ) (saved : DisableInfo) (w : World) : Decidable (Sighted owner saved w) :=
  decidable_of_iff (Seen (withoutUnmapped saved) w.target ∧
      Seen (codeOwnershipConflict w.released (undoRecord owner saved w).originals)
        (inspected owner saved w) ∧
      RestoreSeen w.released (planHandovers w.dropComplete (undoRecord owner saved w)).2
        (inspection owner saved w).2)
    ⟨fun h => ⟨h.1, h.2.1, h.2.2⟩, fun h => ⟨h.mappings, h.code, h.bytes⟩⟩

/-- An undo record that can be tried again and again. -/
structure Retryable (C : ℕ → Prop) (m₀ : ℕ → UInt8) (owner : ℕ) (saved : DisableInfo)
    (w : World) : Prop where
  ownership : saved.ownership = some owner
  opened : (w.owners owner).complete = false
  noOverrides : (w.owners owner).restoreOverrides = []
  image : ∀ image, saved.image = some image →
    image.pid = w.target.pid ∧ w.target.check image = .live
  newest : Newest owner w.livePatches
  record : Undoes C m₀ w.released saved.originals w.target
  covered : ∀ patch ∈ saved.originals, ∀ a, patch.address ≤ a →
    a < patch.address + patch.bytes.length → C a

section undo

variable {C : ℕ → Prop} {m₀ : ℕ → UInt8} {owner : ℕ} {saved : DisableInfo} {w w' : World}

/-- What is mapped is not dropped. -/
theorem withoutUnmapped_originals {t : Target} (h : Restorable w.released saved.originals t)
    (hseen : Seen (withoutUnmapped saved) t) :
    (withoutUnmapped saved t).1.originals = saved.originals := by
  have hobserves : ∀ patch : OriginalBytes, Observes
      (if patch.bytes.isEmpty || overflows patch.address patch.bytes.length then pure true
        else isMapped patch.address patch.bytes.length : Op Bool) :=
    fun _ => observes_ite (observes_pure _) (observes_isMapped _ _)
  have hkeep := observes_keep hobserves saved.originals
  unfold withoutUnmapped at hseen ⊢
  change ((if (saved.image.all fun image => image.pid == t.pid) = true
    then _ else pure saved : Op DisableInfo) t).1.originals = saved.originals
  change Seen (fun t' => (if (saved.image.all fun image => image.pid == t'.pid) = true
    then _ else pure saved : Op DisableInfo) t') t at hseen
  split
  · rename_i himage
    change (keep _ saved.originals t).1 = saved.originals
    have hlast := moves_keep frame_looked
      (fun p : Protection => looked_isMapped p.address p.size) saved.protections
    have hfirst : Seen (keep (fun patch : OriginalBytes =>
        if patch.bytes.isEmpty || overflows patch.address patch.bytes.length then pure true
        else isMapped patch.address patch.bytes.length) saved.originals) t := by
      intro n hn hn'
      refine hseen n hn ?_
      dsimp only
      rw [if_pos himage]
      exact Nat.lt_of_lt_of_le hn' (clock_le_of_looked hlast _)
    obtain ⟨reply, hobliging, hsame⟩ := hkeep.obliging hfirst
    rw [← hsame]
    refine keep_eq_self (fun patch => (hobserves patch).looked) fun patch hpatch n hn => ?_
    split
    · rfl
    · rename_i hne
      rw [Bool.or_eq_true, not_or, List.isEmpty_iff] at hne
      have hpos := List.length_pos_iff.mpr hne.1
      exact isMapped_eq_true (hobliging.after hn) hpos
        (h.mapped patch hpatch _ (Nat.le_refl _) (by omega))
  · rfl

theorem undoRecord_originals (h : Retryable C m₀ owner saved w) (hs : Sighted owner saved w) :
    (undoRecord owner saved w).originals = saved.originals := by
  unfold undoRecord effective
  rw [h.noOverrides]
  exact withoutUnmapped_originals h.record.patches hs.mappings

theorem inspected_looked (owner : ℕ) (saved : DisableInfo) (w : World) :
    w.target.Looked (inspected owner saved w) :=
  frame_looked.trans (looked_withoutUnmapped saved w.target)
    (frame_looked.trans (looked_tryLock _) (looked_threadConflict _ _ _))

theorem inspection_looked (owner : ℕ) (saved : DisableInfo) (w : World) :
    w.target.Looked (inspection owner saved w).2 :=
  frame_looked.trans (inspected_looked owner saved w) (looked_codeOwnershipConflict _ _ _)

/-- **An undo is not refused** for the code it finds. -/
theorem inspection_eq_none (h : Retryable C m₀ owner saved w) (hs : Sighted owner saved w) :
    (inspection owner saved w).1 = none := by
  have hsame := undoRecord_originals h hs
  have hcode := hs.code
  unfold inspection
  rw [hsame] at hcode ⊢
  exact no_conflict (undoes_of_looked h.record (inspected_looked owner saved w)) h.covered hcode

theorem refusal_apply (released : ℕ → Bool) (info : DisableInfo) (t : Target)
    (hfits : ∀ patch ∈ info.originals, overflows patch.address patch.bytes.length = false) :
    refusal released info t =
      match (threadConflict released info t).1 with
      | some error => (some error, (threadConflict released info t).2)
      | none => codeOwnershipConflict released info.originals
        (threadConflict released info t).2 := by
  have hnone : (info.originals.any fun patch => overflows patch.address patch.bytes.length) =
      false := by
    rw [List.any_eq_false]
    exact fun patch hpatch => by rw [hfits patch hpatch]; exact Bool.false_ne_true
  unfold refusal orElse
  rw [bind_apply, hnone, if_neg Bool.false_ne_true]
  cases (threadConflict released info t).1 <;> rfl

theorem after_of_looked {t : Target} (h : w.target.Looked t) :
    ∃ n, { w with target := t } = w.after n := by
  obtain ⟨n, -, rfl⟩ := h
  exact ⟨n, rfl⟩

theorem cleanup_cases (h : Retryable C m₀ owner saved w) (hs : Sighted owner saved w) :
    (∃ error n, cleanup saved w = ({ error := error, disableInfo := saved }, w.after n)) ∨
      cleanup saved w = cleanupRestore saved (undoRecord owner saved w)
        { w with target := (inspection owner saved w).2 } := by
  have hrecord := withoutUnmapped_record saved w.target
  have howner := hrecord.ownership.trans h.ownership
  have horiginals := undoRecord_originals h hs
  have hnone := inspection_eq_none h hs
  have hlock : w.target.Looked (tryLock (withoutUnmapped saved w.target).2).2 :=
    frame_looked.trans (looked_withoutUnmapped saved w.target) (looked_tryLock _)
  have hcleanup : cleanup saved w =
      match tryLock (withoutUnmapped saved w.target).2 with
      | (false, t) => ({ error := "This undo is already in progress", disableInfo := saved },
        { w with target := t })
      | (true, t) => cleanupImage saved (undoRecord owner saved w) { w with target := t } := by
    unfold cleanup World.call
    dsimp only
    rw [howner]
    dsimp only
    cases hanswer : tryLock (withoutUnmapped saved w.target).2 with
    | mk locked t =>
      cases locked with
      | false => rfl
      | true =>
        have hopened : (({ w with target := t } : World).owners owner).complete = false := h.opened
        dsimp only
        rw [hopened, if_neg Bool.false_ne_true]
        unfold undoRecord effective
        dsimp only
        rw [howner]
  have himage : ∀ t, w.target.Looked t → cleanupImage saved (undoRecord owner saved w)
      { w with target := t } = cleanupCheck saved (undoRecord owner saved w)
        { w with target := t } := by
    rintro t ⟨n, -, rfl⟩
    unfold cleanupImage
    have hsame : (undoRecord owner saved w).image = saved.image := hrecord.image
    rw [hsame]
    cases hsaved : saved.image with
    | none => rfl
    | some image =>
      obtain ⟨hpid, hlive⟩ := h.image image hsaved
      have hcheck : (w.target.after n).check image = .live := hlive
      dsimp only
      rw [if_neg (fun hne => hne hpid), hcheck]
  rw [hcleanup]
  have hbusy := looked_threadConflict w.released (undoRecord owner saved w)
    (tryLock (withoutUnmapped saved w.target).2).2
  have hinspection : inspection owner saved w = codeOwnershipConflict w.released
      (undoRecord owner saved w).originals (threadConflict w.released (undoRecord owner saved w)
        (tryLock (withoutUnmapped saved w.target).2).2).2 := rfl
  cases hanswer : tryLock (withoutUnmapped saved w.target).2 with
  | mk locked t =>
    rw [hanswer] at hlock hbusy hinspection
    dsimp only at hlock hbusy hinspection
    cases locked with
    | false =>
      obtain ⟨n, hn⟩ := after_of_looked hlock
      exact .inl ⟨_, n, by dsimp only; rw [hn]⟩
    | true =>
      dsimp only
      rw [himage t hlock, cleanupCheck]
      have hfits : ∀ patch ∈ (undoRecord owner saved w).originals,
          overflows patch.address patch.bytes.length = false := by
        rw [horiginals]
        exact h.record.fits
      have hrefusal := refusal_apply w.released (undoRecord owner saved w) t hfits
      cases hthread : (threadConflict w.released (undoRecord owner saved w) t).1 with
      | some error =>
        rw [hthread] at hrefusal
        obtain ⟨n, hn⟩ := after_of_looked (frame_looked.trans hlock hbusy)
        refine .inl ⟨error, n, ?_⟩
        rw [World.call, hrefusal, ← hn]
      | none =>
        rw [hthread] at hrefusal
        dsimp only at hrefusal
        rw [← hinspection] at hrefusal
        right
        rw [World.call, hrefusal]
        dsimp only
        rw [hnone]

theorem newest_filter {livePatches : List LivePatch} (h : Newest owner livePatches)
    (p : LivePatch → Bool) : Newest owner (livePatches.filter p) := by
  obtain ⟨older, last, rfl, holder, hlast⟩ := h
  exact ⟨older.filter p, last.filter p, List.filter_append _ _,
    fun live hlive => holder live (List.mem_filter.mp hlive).1,
    Nat.le_trans (List.length_filter_le _ _) hlast⟩

theorem freeAllocs_kept (allocs : List AllocEntry) (w : World) :
    (freeAllocs allocs w).2.owners = w.owners ∧
      (freeAllocs allocs w).2.livePatches = w.livePatches ∧
      (freeAllocs allocs w).2.target.pid = w.target.pid ∧
      (freeAllocs allocs w).2.target.check = w.target.check := by
  induction allocs generalizing w with
  | nil => exact ⟨rfl, rfl, rfl, rfl⟩
  | cons a allocs ih =>
    unfold freeAllocs
    split
    · exact ih w
    · have hcall : (w.call (free a.address a.size)).2.owners = w.owners ∧
          (w.call (free a.address a.size)).2.livePatches = w.livePatches ∧
          (w.call (free a.address a.size)).2.target.pid = w.target.pid ∧
          (w.call (free a.address a.size)).2.target.check = w.target.check := by
        refine ⟨rfl, rfl, ?_, ?_⟩ <;>
        · unfold World.call free
          dsimp only
          split <;> rfl
      obtain ⟨howners, hlive, hpid, hcheck⟩ := hcall
      generalize w.call (free a.address a.size) = result at howners hlive hpid hcheck
      obtain ⟨freed, w₁⟩ := result
      dsimp only at howners hlive hpid hcheck
      cases freed with
      | error r =>
        obtain ⟨h₁, h₂, h₃, h₄⟩ := ih w₁
        exact ⟨h₁.trans howners, h₂.trans hlive, h₃.trans hpid, h₄.trans hcheck⟩
      | ok _ =>
        obtain ⟨h₁, h₂, h₃, h₄⟩ := ih (w₁.release a)
        exact ⟨h₁.trans howners, h₂.trans hlive, h₃.trans hpid, h₄.trans hcheck⟩

theorem Retryable.later (h : Retryable C m₀ owner saved w) (howners : w'.owners = w.owners)
    (hlive : Newest owner w'.livePatches) (hreleased : w'.released = w.released)
    (hpid : w'.target.pid = w.target.pid) (hcheck : w'.target.check = w.target.check)
    (hrecord : Undoes C m₀ w.released saved.originals w'.target) :
    Retryable C m₀ owner saved w' where
  ownership := h.ownership
  opened := by rw [howners]; exact h.opened
  noOverrides := by rw [howners]; exact h.noOverrides
  image := by rw [hpid, hcheck]; exact h.image
  newest := hlive
  record := by rw [hreleased]; exact hrecord
  covered := h.covered

theorem Retryable.after (h : Retryable C m₀ owner saved w) (n : ℕ) :
    Retryable C m₀ owner saved (w.after n) :=
  h.later rfl h.newest rfl rfl rfl
    ⟨h.record.restores, ⟨h.record.patches.unreleased, h.record.patches.mapped⟩, h.record.fits,
      h.record.verified⟩

/-- What comes of an undo that comes to restore. -/
def Restored (C : ℕ → Prop) (m₀ : ℕ → UInt8) (owner : ℕ) (answer : AutoAsmResult × World) :
    Prop :=
  (answer.1.success = true ∧ ∀ a, C a → answer.2.target.mem a = m₀ a) ∨
    (answer.1.success = false ∧ Retryable C m₀ owner answer.1.disableInfo answer.2)

theorem Retryable.freed (h : Retryable C m₀ owner saved w)
    (hplace : ∀ a, C a → w'.target.mem a = m₀ a) (howners : w'.owners = w.owners)
    (hlive : ∀ live ∈ w'.livePatches, live.owner ≠ owner)
    (hpid : w'.target.pid = w.target.pid) (hcheck : w'.target.check = w.target.check)
    (allocs : List AllocEntry) :
    Retryable C m₀ owner { saved with allocs := allocs, originals := [], protections := [] } w' where
  ownership := h.ownership
  opened := by rw [howners]; exact h.opened
  noOverrides := by rw [howners]; exact h.noOverrides
  image := by rw [hpid, hcheck]; exact h.image
  newest := ⟨w'.livePatches, [], (List.append_nil _).symm, hlive, Nat.zero_le _⟩
  record :=
    { restores := hplace
      patches := ⟨fun _ hp => absurd hp List.not_mem_nil, fun _ hp => absurd hp List.not_mem_nil⟩
      fits := fun _ hp => absurd hp List.not_mem_nil
      verified := fun _ hp => absurd hp List.not_mem_nil }
  covered := fun _ hp => absurd hp List.not_mem_nil

theorem cleanupFree_restored {info : DisableInfo} (h : Retryable C m₀ owner saved w)
    (howner : info.ownership = some owner) (hplace : ∀ a, C a → w.target.mem a = m₀ a) :
    Restored C m₀ owner (cleanupFree saved info [] w) := by
  obtain ⟨howners, hlive, hpid, hcheck⟩ := freeAllocs_kept info.allocs (w.leave info.ownership)
  have hplace' : ∀ a, C a → (freeAllocs info.allocs (w.leave info.ownership)).2.target.mem a =
      m₀ a := fun a hC => by
    rw [freeAllocs_mem]
    exact hplace a hC
  unfold cleanupFree
  dsimp only
  rw [List.foldl_nil]
  by_cases herror : (freeAllocs info.allocs (w.leave info.ownership)).1.2 = ""
  · rw [if_pos herror]
    exact .inl ⟨rfl, hplace'⟩
  · rw [if_neg herror]
    refine .inr ⟨rfl, h.freed hplace' howners (fun live hmem => ?_) hpid hcheck _⟩
    rw [hlive, World.leave, howner] at hmem
    have hother := (List.mem_filter.mp hmem).2
    exact fun heq => bne_iff_ne.mp hother (congrArg some heq)

/-- No byte is written. -/
def Target.SameBytes (t t' : Target) : Prop :=
  t'.mem = t.mem

theorem frame_sameBytes : Frame Target.SameBytes where
  refl := fun _ => rfl
  trans := fun hab hbc => hbc.trans hab

theorem sameBytes_restoreProtection (released : ℕ → Bool) (p : Protection) :
    Moves Target.SameBytes (restoreProtection released p) := by
  refine Moves.ite (Moves.pure frame_sameBytes _) ?_
  refine Moves.bind frame_sameBytes (fun t => rfl) fun restored => ?_
  cases restored with
  | error r => exact Moves.pure frame_sameBytes _
  | ok n => exact Moves.pure frame_sameBytes _

theorem cleanupRestore_eq {saved info : DisableInfo} {w : World} {error error' : String}
    {t t' : Target} {handovers : List Handover} {originals : List OriginalBytes}
    (hplan : planHandovers w.dropComplete info = (handovers, originals))
    (hbytes : restoreBytes w.released originals w.target = (error, t))
    (hpages : collectErrors (restoreProtection w.released) info.protections.reverse t =
      (error', t')) :
    cleanupRestore saved info w =
      if error ≠ "" then
        ({ error := error, disableInfo := saved }, { w.dropComplete with target := t })
      else if error' ≠ "" then
        ({ error := error', disableInfo := saved }, { w.dropComplete with target := t' })
      else cleanupFree saved info handovers { w.dropComplete with target := t' } := by
  obtain ⟨w₁, hw₁⟩ : ∃ w₁ : World, w₁ = { w.dropComplete with target := t } := ⟨_, rfl⟩
  obtain ⟨w₂, hw₂⟩ : ∃ w₂ : World, w₂ = { w.dropComplete with target := t' } := ⟨_, rfl⟩
  have hfirst : w.dropComplete.call (restoreBytes w.dropComplete.released originals) =
      (error, w₁) := by
    unfold World.call
    rw [show restoreBytes w.dropComplete.released originals w.dropComplete.target = _ from hbytes,
      hw₁]
  have hsecond : w₁.call (collectErrors (restoreProtection w₁.released)
      info.protections.reverse) = (error', w₂) := by
    rw [hw₁, hw₂]
    unfold World.call
    rw [show collectErrors (restoreProtection w.dropComplete.released) info.protections.reverse t =
      _ from hpages]
  unfold cleanupRestore
  dsimp only
  rw [hplan]
  dsimp only
  rw [hfirst, ← hw₁, ← hw₂]
  dsimp only
  rw [hsecond]

theorem cleanupRestore_restored (h : Retryable C m₀ owner saved w) (hs : Sighted owner saved w) :
    Restored C m₀ owner (cleanupRestore saved (undoRecord owner saved w)
      { w with target := (inspection owner saved w).2 }) := by
  have horiginals := undoRecord_originals h hs
  have howner : (undoRecord owner saved w).ownership = some owner :=
    (withoutUnmapped_record saved w.target).ownership.trans h.ownership
  have hseen := hs.bytes
  rw [planHandovers_newest howner h.newest, horiginals] at hseen
  obtain ⟨n, -, hafter⟩ := inspection_looked owner saved w
  rw [hafter] at hseen ⊢
  have hplan : planHandovers (w.after n).dropComplete (undoRecord owner saved w) =
      ([], saved.originals) := by
    rw [planHandovers_after, planHandovers_newest howner h.newest, horiginals]
  obtain ⟨hrecord, hplace⟩ := restoreBytes_spec (h.after n).record hseen
  have hsteady := steady_restoreBytes w.released saved.originals (w.target.after n)
  cases hbytes : restoreBytes w.released saved.originals (w.target.after n) with
  | mk error t =>
    have hopened := moves_collectErrors frame_steady (steady_restoreProtection w.released)
      (undoRecord owner saved w).protections.reverse t
    have hsame := moves_collectErrors frame_sameBytes (sameBytes_restoreProtection w.released)
      (undoRecord owner saved w).protections.reverse t
    cases hpages : collectErrors (restoreProtection w.released)
        (undoRecord owner saved w).protections.reverse t with
    | mk error' t' =>
      rw [show restoreBytes (w.after n).released saved.originals (w.after n).target = _
        from hbytes] at hrecord hplace
      rw [hbytes] at hsteady
      rw [hpages] at hopened hsame
      dsimp only at hrecord hplace hsteady hopened hsame
      have hkept : Retryable C m₀ owner saved { w.dropComplete with target := t } :=
        h.later rfl (newest_filter h.newest _) rfl hsteady.pid hsteady.check hrecord
      have hkept' : Retryable C m₀ owner saved { w.dropComplete with target := t' } :=
        hkept.later rfl hkept.newest rfl hopened.pid hopened.check (hrecord.steady hopened hsame)
      change Restored C m₀ owner (cleanupRestore saved (undoRecord owner saved w) (w.after n))
      rw [cleanupRestore_eq hplan hbytes hpages]
      split
      · exact .inr ⟨rfl, hkept⟩
      · rename_i herror
        split
        · exact .inr ⟨rfl, hkept'⟩
        · refine cleanupFree_restored hkept' howner fun a hC => ?_
          rw [← hplace (not_not.mp herror) a hC]
          exact congrFun hsame a

/-- **One attempt**: it brings the bytes of before back, or it can be made again. -/
theorem cleanup_restored (h : Retryable C m₀ owner saved w) (hs : Sighted owner saved w) :
    Restored C m₀ owner (cleanup saved w) := by
  rcases cleanup_cases h hs with ⟨error, n, hrefused⟩ | hrestores
  · rw [hrefused]
    exact .inr ⟨rfl, h.after n⟩
  · rw [hrestores]
    exact cleanupRestore_restored h hs

end undo

end CheatEngine.AutoAssembler
