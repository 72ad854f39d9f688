import CheatEngineLinux.Platform.TargetDebug

/-!
# Registers are written as a whole or not at all

A write that fails part way is undone, and what was undone is read back.  Whatever fails, the caller
learns whether the registers are those from before.

* `Restored`: the registers are those from before, up to the reserved bits.
* `ContextWritten`, `SlotSet`, `SlotRemoved`, `BankRestored`: what a success means.

* **PROVED `ends_verifyAll`, `ends_verifyRegs`**: what a check that succeeds says.
* **PROVED `slotControl_of_enabled`**: a slot that was enabled is read back as it was set.
* **PROVED `registers_written_or_restored`**: a success changes what was asked for and nothing else,
  and after an error that does not say otherwise the registers are those from before.
-/

namespace CheatEngine.TargetDebug

open BitFields Stops

variable {k : Kernel} {t t' t₀ : Thread k}

/-! ### The control register -/

def SlotBit (slot bit : ℕ) : Prop :=
  (slot * 2 ≤ bit ∧ bit < slot * 2 + 2) ∨ (16 + slot * 4 ≤ bit ∧ bit < 16 + slot * 4 + 4)

instance (slot bit : ℕ) : Decidable (SlotBit slot bit) :=
  inferInstanceAs (Decidable (_ ∨ _))

/-- The bits of `DR7` that are not reserved. -/
theorem getLsbD_verifyMask_seven (bit : ℕ) :
    (verifyMask 7).getLsbD bit = decide (bit < 10 ∨ (16 ≤ bit ∧ bit < 32)) := by
  have hbits : ∀ bit < 64,
      (verifyMask 7).getLsbD bit = decide (bit < 10 ∨ (16 ≤ bit ∧ bit < 32)) := by decide
  by_cases h : bit < 64
  · exact hbits bit h
  · rw [BitVec.getLsbD_of_ge _ _ (by omega)]
    simp only [false_eq_decide_iff]
    omega

theorem getLsbD_cleared (control : BitVec 64) (slot bit : ℕ) :
    (cleared control slot).getLsbD bit = (control.getLsbD bit && !decide (SlotBit slot bit)) := by
  change (control &&& ~~~field 64 (slot * 2) 2 &&& ~~~field 64 (16 + slot * 4) 4).getLsbD bit = _
  by_cases hbit : bit < 64
  · simp only [BitVec.getLsbD_and, BitVec.getLsbD_not, getLsbD_field, hbit, decide_true,
      Bool.true_and, true_and, Bool.and_assoc]
    rw [← Bool.not_or, ← Bool.decide_or]
    rfl
  · simp [BitVec.getLsbD_of_ge control bit (by omega)]

/-- What stands in the field of a slot: four bits. -/
def condition (access : HardwareBreakpointAccess) (length : ℕ) : BitVec 64 :=
  (accessType access ||| (lengthBits length <<< 2)).setWidth 64

theorem lengthBits_cases (length : ℕ) : lengthBits length = 0 ∨ lengthBits length = 1 ∨
    lengthBits length = 3 ∨ lengthBits length = 2 := by
  unfold lengthBits
  split_ifs <;> simp

theorem getLsbD_condition_of_le (access : HardwareBreakpointAccess) (length : ℕ) {bit : ℕ}
    (hbit : 4 ≤ bit) : (condition access length).getLsbD bit = false := by
  have hlt : (condition access length).toNat < 2 ^ 4 := by
    unfold condition
    rcases lengthBits_cases length with h | h | h | h <;> rw [h] <;> cases access <;> decide
  exact Nat.testBit_lt_two_pow (Nat.lt_of_lt_of_le hlt (Nat.pow_le_pow_right (by decide) hbit))

theorem getLsbD_enabled (control : BitVec 64) {slot : ℕ} (hslot : slot < 4)
    (access : HardwareBreakpointAccess) (length bit : ℕ) :
    (enabled control slot access length).getLsbD bit =
      if 16 + slot * 4 ≤ bit ∧ bit < 16 + slot * 4 + 4 then
        (condition access length).getLsbD (bit - (16 + slot * 4))
      else if slot * 2 ≤ bit ∧ bit < slot * 2 + 2 then decide (bit = slot * 2)
      else control.getLsbD bit := by
  change (cleared control slot ||| field 64 (slot * 2) 1 |||
    condition access length <<< (16 + slot * 4)).getLsbD bit = _
  simp only [BitVec.getLsbD_or, getLsbD_cleared, getLsbD_field, BitVec.getLsbD_shiftLeft]
  by_cases hcondition : 16 + slot * 4 ≤ bit ∧ bit < 16 + slot * 4 + 4
  · have hin : SlotBit slot bit := Or.inr hcondition
    rw [if_pos hcondition]
    simp [hin, show bit < 64 by omega, show ¬bit < slot * 2 + 1 by omega,
      show ¬bit < 16 + slot * 4 by omega]
  · have hout : (decide (bit < 64) && !decide (bit < 16 + slot * 4) &&
        (condition access length).getLsbD (bit - (16 + slot * 4))) = false := by
      by_cases hlow : bit < 16 + slot * 4
      · simp [hlow]
      · rw [getLsbD_condition_of_le access length (by omega), Bool.and_false]
    rw [if_neg hcondition, hout, Bool.or_false]
    split
    · have hin : SlotBit slot bit := Or.inl ‹_›
      simp only [hin, decide_true, Bool.not_true, Bool.and_false, Bool.false_or, decide_eq_decide]
      omega
    · have hin : ¬SlotBit slot bit := not_or.2 ⟨‹_›, hcondition⟩
      simp only [hin, decide_false, Bool.not_false, Bool.and_true, Bool.or_eq_left_iff_imp,
        decide_eq_true_eq]
      omega

def OthersKept (slot : ℕ) (before after : BitVec 64) : Prop :=
  ∀ bit, (verifyMask 7).getLsbD bit = true → ¬SlotBit slot bit →
    after.getLsbD bit = before.getLsbD bit

theorem othersKept_cleared {slot : ℕ} {before after : BitVec 64}
    (h : Agree (verifyMask 7) after (cleared before slot)) : OthersKept slot before after := by
  intro bit hmask hbit
  rw [agree_iff.1 h bit hmask, getLsbD_cleared]
  simp [hbit]

theorem othersKept_enabled {slot length : ℕ} (hslot : slot < 4) {before after : BitVec 64}
    {access : HardwareBreakpointAccess}
    (h : Agree (verifyMask 7) after (enabled before slot access length)) :
    OthersKept slot before after := by
  intro bit hmask hbit
  obtain ⟨henable, hcondition⟩ := not_or.1 hbit
  rw [agree_iff.1 h bit hmask, getLsbD_enabled before hslot, if_neg hcondition, if_neg henable]

theorem verifyMask_of_slotBit {slot bit : ℕ} (hslot : slot < 4) (hbit : SlotBit slot bit) :
    (verifyMask 7).getLsbD bit = true := by
  rw [getLsbD_verifyMask_seven]
  rcases hbit with h | h <;> exact decide_eq_true (by omega)

/-- What `readNativeHardwareBank` says of a slot comes from the two fields of the slot. -/
theorem slotControl_eq (control : BitVec 64) (slot : ℕ) :
    slotControl control slot = (read control (slot * 2) 2 |||
      read control (16 + slot * 4) 4 <<< 2).setWidth 32 := rfl

def breakpointControl (access : HardwareBreakpointAccess) (length : ℕ) : BitVec 32 :=
  1#32 ||| (accessType access <<< 2) ||| (lengthBits length <<< 4)

theorem slotControl_of_enabled {slot length : ℕ} (hslot : slot < 4) {before after : BitVec 64}
    {access : HardwareBreakpointAccess}
    (h : Agree (verifyMask 7) after (enabled before slot access length)) :
    slotControl after slot = breakpointControl access length := by
  have henable : read after (slot * 2) 2 = 1#64 := by
    refine read_eq_of_bits (fun i hi => ?_) fun i hi => ?_
    · rw [agree_iff.1 h _ (verifyMask_of_slotBit hslot (Or.inl (by omega))),
        getLsbD_enabled before hslot, if_neg (by omega), if_pos (by omega)]
      obtain rfl | rfl : i = 0 ∨ i = 1 := by omega
      · simp
      · simp
    · exact Nat.testBit_lt_two_pow (Nat.one_lt_two_pow (by omega))
  have hcondition : read after (16 + slot * 4) 4 = condition access length := by
    refine read_eq_of_bits (fun i hi => ?_) fun i hi => getLsbD_condition_of_le _ _ hi
    rw [agree_iff.1 h _ (verifyMask_of_slotBit hslot (Or.inr (by omega))),
      getLsbD_enabled before hslot, if_pos (by omega), Nat.add_sub_cancel_left]
  rw [slotControl_eq, henable, hcondition]
  unfold condition breakpointControl
  rcases lengthBits_cases length with h | h | h | h <;> rw [h] <;> cases access <;> decide

theorem slotControl_of_cleared {slot : ℕ} (hslot : slot < 4) {before after : BitVec 64}
    (h : Agree (verifyMask 7) after (cleared before slot)) : slotControl after slot = 0 := by
  have hread : ∀ start width, (∀ i < width, SlotBit slot (start + i)) →
      read after start width = 0#64 := by
    intro start width hin
    refine read_eq_of_bits (fun i hi => ?_) fun i _ => BitVec.getLsbD_zero
    rw [agree_iff.1 h _ (verifyMask_of_slotBit hslot (hin i hi)), getLsbD_cleared]
    simp [hin i hi]
  rw [slotControl_eq, hread _ 2 fun i hi => Or.inl (by omega),
    hread _ 4 fun i hi => Or.inr (by omega)]
  decide

/-! ### What stays the same -/

/-- Neither kind of register has changed. -/
def Thread.Same (t t' : Thread k) : Prop := t'.regs = t.regs ∧ t'.dr = t.dr

/-- The other debug registers have not changed. -/
def Thread.Beside (written : List ℕ) (t t' : Thread k) : Prop :=
  ∀ index, index ∉ written → t'.dr index = t.dr index

/-- The registers are those from before, up to the reserved bits. -/
def Thread.Restored (t t' : Thread k) : Prop :=
  t'.regs = t.regs ∧ ∀ index, Agree (verifyMask index) (t'.dr index) (t.dr index)

theorem Thread.Same.refl (t : Thread k) : t.Same t := ⟨rfl, rfl⟩

theorem Thread.Same.trans {t'' : Thread k} (h : t.Same t') (h' : t'.Same t'') : t.Same t'' :=
  ⟨h'.1.trans h.1, h'.2.trans h.2⟩

theorem Thread.Same.restored (h : t.Same t') : t.Restored t' :=
  ⟨h.1, fun index => Agree.of_eq (congrFun h.2 index)⟩

theorem Thread.Same.beside (h : t.Same t') (written : List ℕ) : t.Beside written t' :=
  fun index _ => congrFun h.2 index

theorem Thread.Beside.trans {t'' : Thread k} {written : List ℕ} (h : t.Beside written t')
    (h' : t'.Beside written t'') : t.Beside written t'' :=
  fun index hindex => (h' index hindex).trans (h index hindex)

theorem Thread.Beside.mono {written more : List ℕ} (h : t.Beside written t')
    (hsub : written ⊆ more) : t.Beside more t' :=
  fun index hindex => h index fun hmem => hindex (hsub hmem)

/-- One register is written, and then the others. -/
theorem Thread.Beside.cons {t'' : Thread k} {index : ℕ} {rest : List ℕ}
    (h : t.Beside [index] t') (h' : t'.Beside rest t'') : t.Beside (index :: rest) t'' := by
  intro other hother
  simp only [List.mem_cons, not_or] at hother
  exact (h' other hother.2).trans (h other (by simpa using hother.1))

theorem Thread.Beside.restored {written : List (ℕ × BitVec 64)}
    (h : t.Beside (written.map Prod.fst) t') (hregs : t'.regs = t.regs)
    (hsaved : ∀ p ∈ written, p.2 = t.dr p.1)
    (hagree : ∀ p ∈ written, Agree (verifyMask p.1) (t'.dr p.1) p.2) : t.Restored t' := by
  refine ⟨hregs, fun index => ?_⟩
  by_cases hindex : index ∈ written.map Prod.fst
  · obtain ⟨p, hp, rfl⟩ := List.mem_map.1 hindex
    exact hsaved p hp ▸ hagree p hp
  · exact Agree.of_eq (h index hindex)

/-! ### Calls -/

section Calls

variable {E : Error → Thread k → Prop}

theorem ends_ask {α : Type} {answers : ℕ → α} {A : α → Thread k → Prop}
    (h : ∀ x t', t.Same t' → A x t') : Ends (ask answers) t A E := by
  change A (answers t.now) { t with now := t.now + 1 }
  exact h _ _ ⟨rfl, rfl⟩

theorem ends_getRegs {A : UserRegs → Thread k → Prop} (hok : ∀ t', t.Same t' → A t.regs t')
    (hfailed : ∀ errno t', t.Same t' → E (.kernel errno) t') : Ends getRegs t A E := by
  refine Ends.bind (ends_ask fun answer t₁ h₁ => ?_)
  cases answer with
  | some errno => exact Ends.stop (hfailed errno t₁ h₁)
  | none =>
    refine Ends.bind (Ends.get (Ends.pure ?_))
    rw [h₁.1]
    exact hok t₁ h₁

theorem ends_setRegs {regs : UserRegs} {A : Unit → Thread k → Prop}
    (hok : ∀ t', t'.regs = regs → t'.dr = t.dr → A () t')
    (hfailed : ∀ errno t', t'.dr = t.dr → E (.kernel errno) t') : Ends (setRegs regs) t A E := by
  refine Ends.bind (ends_ask fun answer t₁ h₁ => ?_)
  cases answer with
  | some failure => exact Ends.bind (Ends.modify (Ends.stop (hfailed failure.errno _ h₁.2)))
  | none => exact Ends.modify (hok _ rfl h₁.2)

theorem ends_readDr {index : ℕ} {A : BitVec 64 → Thread k → Prop}
    (hok : ∀ t', t.Same t' → A (t.dr index) t')
    (hfailed : ∀ errno t', t.Same t' → E (.kernel errno) t') : Ends (readDr index) t A E := by
  refine Ends.bind (ends_ask fun answer t₁ h₁ => ?_)
  cases answer with
  | some errno => exact Ends.stop (hfailed errno t₁ h₁)
  | none =>
    refine Ends.bind (Ends.get (Ends.pure ?_))
    rw [h₁.2]
    exact hok t₁ h₁

theorem ends_writeDr {index : ℕ} {value : BitVec 64} {A : Unit → Thread k → Prop}
    (hok : ∀ t', t'.regs = t.regs → t.Beside [index] t' →
      t'.dr index = k.stored index value → A () t')
    (hfailed : ∀ errno t', t.Same t' → E (.kernel errno) t') :
    Ends (writeDr index value) t A E := by
  refine Ends.bind (ends_ask fun answer t₁ h₁ => ?_)
  cases answer with
  | some errno => exact Ends.stop (hfailed errno t₁ h₁)
  | none =>
    refine Ends.modify (hok _ h₁.1 (fun i hi => ?_) (Function.update_self ..))
    rw [← congrFun h₁.2 i]
    exact Function.update_of_ne (List.ne_of_not_mem_cons hi) ..

theorem ends_verifyDr {index : ℕ} {value : BitVec 64} {A : Bool → Thread k → Prop}
    (h : ∀ verified t', t.Same t' →
      (verified = true → Agree (verifyMask index) (t.dr index) value) → A verified t') :
    Ends (verifyDr index value) t A E := by
  refine Ends.bind (Ends.attempt (ends_readDr (fun t₁ h₁ => Ends.pure ?_)
    fun errno t₁ h₁ => Ends.pure ?_))
  · exact h _ t₁ h₁ of_decide_eq_true
  · exact h false t₁ h₁ (by simp)

/-- A call that is let fail. -/
theorem ends_succeeds {m : Run k Unit} {A : Bool → Thread k → Prop}
    (h : Ends m t (fun _ t' => A true t') fun _ t' => A false t') : Ends (succeeds m) t A E :=
  Ends.bind (Ends.attempt (h.mono (fun _ _ h' => Ends.pure h') fun _ _ h' => Ends.pure h'))

/-- `restored ? error : brokenRestore()` -/
theorem ends_failWith {restored : Bool} {error : Error} {A : Unit → Thread k → Prop}
    (h : restored = true → t₀.Restored t) :
    Ends (failWith restored error) t A fun e t' => e ≠ .brokenRestore → t₀.Restored t' := by
  cases restored with
  | true => exact Ends.stop fun _ => h rfl
  | false => exact Ends.stop fun hbroken => absurd rfl hbroken

end Calls

/-! ### Loops -/

section Loops

variable {E : Error → Thread k → Prop}

theorem ends_readAll (list : List ℕ) {t : Thread k}
    {A : List (ℕ × BitVec 64) → Thread k → Prop}
    (hok : ∀ saved t', t.Same t' → saved.map Prod.fst = list →
      (∀ p ∈ saved, p.2 = t.dr p.1) → A saved t')
    (hfailed : ∀ errno t', t.Same t' → E (.kernel errno) t') : Ends (readAll list) t A E := by
  induction list generalizing t A with
  | nil => exact Ends.pure (hok [] t (.refl t) rfl (by simp))
  | cons index rest ih =>
    refine Ends.bind (ends_readDr (fun t₁ h₁ => Ends.bind ?_) hfailed)
    refine ih (fun saved t₂ h₂ hkeys hsaved => Ends.pure ?_)
      fun errno t₂ h₂ => hfailed errno t₂ (h₁.trans h₂)
    refine hok _ t₂ (h₁.trans h₂) (by simp [hkeys]) ?_
    simpa [h₁.2] using hsaved

theorem ends_writeAll (list : List (ℕ × BitVec 64)) {t : Thread k} {A : Unit → Thread k → Prop}
    (hkeys : (list.map Prod.fst).Nodup)
    (hok : ∀ t', t'.regs = t.regs → t.Beside (list.map Prod.fst) t' →
      (∀ p ∈ list, t'.dr p.1 = k.stored p.1 p.2) → A () t')
    (hfailed : ∀ e t', E e t') : Ends (writeAll list) t A E := by
  induction list generalizing t A with
  | nil => exact Ends.pure (hok t rfl (fun _ _ => rfl) (by simp))
  | cons p rest ih =>
    obtain ⟨hp, hrest⟩ := List.nodup_cons.1 hkeys
    refine Ends.bind (ends_writeDr (fun t₁ hregs₁ h₁ hstored => ?_) fun _ _ _ => hfailed _ _)
    refine ih hrest fun t₂ hregs₂ h₂ hall => hok t₂ (hregs₂.trans hregs₁) (h₁.cons h₂) ?_
    intro q hq
    rcases List.mem_cons.1 hq with rfl | hq
    · exact (h₂ _ hp).trans hstored
    · exact hall q hq

/-- Each register is checked right after it is written, and the later writes leave it. -/
theorem ends_writeVerified (list : List (ℕ × BitVec 64)) {t : Thread k}
    {A : Unit → Thread k → Prop} (hkeys : (list.map Prod.fst).Nodup)
    (hok : ∀ t', t'.regs = t.regs → t.Beside (list.map Prod.fst) t' →
      (∀ p ∈ list, Agree (verifyMask p.1) (t'.dr p.1) p.2) → A () t')
    (hfailed : ∀ e t', t'.regs = t.regs → t.Beside (list.map Prod.fst) t' → E e t') :
    Ends (writeVerified list) t A E := by
  induction list generalizing t A with
  | nil => exact Ends.pure (hok t rfl (fun _ _ => rfl) (by simp))
  | cons p rest ih =>
    obtain ⟨hp, hrest⟩ := List.nodup_cons.1 hkeys
    refine Ends.bind (ends_writeDr (fun t₁ hregs₁ h₁ _ => ?_)
      fun _ t₁ h₁ => hfailed _ t₁ h₁.1 (h₁.beside _))
    refine Ends.bind (ends_verifyDr fun verified t₂ h₂ hverified => ?_)
    refine Ends.ite (fun htrue => ?_) fun _ => Ends.stop ?_
    · refine ih hrest (fun t₃ hregs₃ h₃ hall => ?_) fun e t₃ hregs₃ h₃ => ?_
      · refine hok t₃ (hregs₃.trans (h₂.1.trans hregs₁)) (h₁.cons ((h₂.beside _).trans h₃)) ?_
        intro q hq
        rcases List.mem_cons.1 hq with rfl | hq
        · rw [h₃ _ hp, h₂.2]
          exact hverified htrue
        · exact hall q hq
      · exact hfailed e t₃ (hregs₃.trans (h₂.1.trans hregs₁))
          (h₁.cons ((h₂.beside _).trans h₃))
    · exact hfailed _ t₂ (h₂.1.trans hregs₁) (h₁.cons (h₂.beside _))

/-- What the writes of a rollback leave alone, whether they fail or not. -/
theorem ends_rewriteAll (list : List (ℕ × BitVec 64)) {t : Thread k} {written : List ℕ}
    {restored : Bool} {A : Bool → Thread k → Prop} (hwritten : ∀ p ∈ list, p.1 ∈ written)
    (h : ∀ restored t', t'.regs = t.regs → t.Beside written t' → A restored t') :
    Ends (rewriteAll list restored) t A E := by
  induction list generalizing t restored with
  | nil => exact Ends.pure (h restored t rfl fun _ _ => rfl)
  | cons p rest ih =>
    have hrest : ∀ q ∈ rest, q.1 ∈ written := fun q hq => hwritten q (List.mem_cons_of_mem _ hq)
    refine Ends.bind (ends_succeeds (ends_writeDr (fun t₁ hregs₁ h₁ _ => ?_) fun _ t₁ h₁ => ?_))
    · refine ih hrest fun restored t₂ hregs₂ h₂ => h restored t₂ (hregs₂.trans hregs₁) ?_
      exact (h₁.mono (by simpa using hwritten p List.mem_cons_self)).trans h₂
    · exact ih hrest fun restored t₂ hregs₂ h₂ =>
        h restored t₂ (hregs₂.trans h₁.1) ((h₁.beside _).trans h₂)

theorem ends_verifyAll (list : List (ℕ × BitVec 64)) {t : Thread k} {restored : Bool}
    {A : Bool → Thread k → Prop}
    (h : ∀ verified t', t.Same t' → (verified = true →
      restored = true ∧ ∀ p ∈ list, Agree (verifyMask p.1) (t.dr p.1) p.2) → A verified t') :
    Ends (verifyAll list restored) t A E := by
  induction list generalizing t restored with
  | nil => exact Ends.pure (h restored t (.refl t) fun hrestored => ⟨hrestored, by simp⟩)
  | cons p rest ih =>
    refine Ends.bind (ends_verifyDr fun verified t₁ h₁ hverified => ?_)
    refine ih fun all t₂ h₂ hall => h all t₂ (h₁.trans h₂) fun htrue => ?_
    obtain ⟨hboth, hrest⟩ := hall htrue
    obtain ⟨hp, hrestored⟩ := Bool.and_eq_true_iff.1 hboth
    refine ⟨hrestored, List.forall_mem_cons.2 ⟨hverified hp, ?_⟩⟩
    simpa [h₁.2] using hrest

theorem ends_requireAll (list : List (ℕ × BitVec 64)) {t : Thread k} {A : Unit → Thread k → Prop}
    (hok : ∀ t', t.Same t' → (∀ p ∈ list, Agree (verifyMask p.1) (t.dr p.1) p.2) → A () t')
    (hfailed : ∀ e t', E e t') : Ends (requireAll list) t A E := by
  induction list generalizing t A with
  | nil => exact Ends.pure (hok t (.refl t) (by simp))
  | cons p rest ih =>
    refine Ends.bind (ends_verifyDr fun verified t₁ h₁ hverified => ?_)
    refine Ends.ite (fun htrue => ?_) fun _ => Ends.stop (hfailed _ _)
    refine ih fun t₂ h₂ hall => hok t₂ (h₁.trans h₂) ?_
    refine List.forall_mem_cons.2 ⟨hverified htrue, ?_⟩
    simpa [h₁.2] using hall

theorem ends_verifyRegs {original : UserRegs} {restored : Bool} {A : Bool → Thread k → Prop}
    (h : ∀ verified t', t.Same t' →
      (verified = true → restored = true ∧ t.regs = original) → A verified t') :
    Ends (verifyRegs original restored) t A E := by
  refine Ends.bind (Ends.attempt (ends_getRegs (fun t₁ h₁ => Ends.pure ?_)
    fun errno t₁ h₁ => Ends.pure ?_))
  · refine h _ t₁ h₁ fun htrue => ?_
    obtain ⟨hregs, hrestored⟩ := Bool.and_eq_true_iff.1 htrue
    exact ⟨hrestored, (of_decide_eq_true hregs).symm⟩
  · exact h false t₁ h₁ (by simp)

theorem ends_verifySlot {slot : ℕ} {address control : BitVec 64} {A : Bool → Thread k → Prop}
    (h : ∀ verified t', t.Same t' → (verified = true →
      ∀ p ∈ [(slot, address), (7, control)], Agree (verifyMask p.1) (t.dr p.1) p.2) →
      A verified t') :
    Ends (verifySlot slot address control) t A E := by
  refine Ends.bind (ends_verifyDr fun verified t₁ h₁ hverified => ?_)
  refine Ends.ite (fun htrue => ?_) fun _ => Ends.pure (h false t₁ h₁ (by simp))
  refine ends_verifyDr fun both t₂ h₂ hboth => h both t₂ (h₁.trans h₂) fun hall => ?_
  rw [h₁.2] at hboth
  simpa using ⟨hverified htrue, hboth hall⟩

end Loops

/-! ### Contexts -/

/-- What an error says of the registers. -/
abbrev undone (t : Thread k) : Error → Thread k → Prop :=
  fun e t' => e ≠ .brokenRestore → t.Restored t'

theorem ends_readSaved {c : CpuContext} (h : t₀.Same t) :
    Ends (readSaved c) t (fun saved t' => t₀.Same t' ∧ (c.debugRegistersValid = true →
      saved.map Prod.fst = indices ∧ ∀ p ∈ saved, p.2 = t₀.dr p.1)) (undone t₀) := by
  refine Ends.ite (fun _ => ?_) fun hnot => Ends.pure ⟨h, fun hvalid => absurd hvalid hnot⟩
  refine ends_readAll indices (fun saved t₁ h₁ hkeys hvalues => ?_)
    fun errno t₁ h₁ _ => (h.trans h₁).restored
  exact ⟨h.trans h₁, fun _ => ⟨hkeys, by simpa [h.2] using hvalues⟩⟩

theorem ends_restoreRegs {error : Error} {A : Unit → Thread k → Prop} (h : t.dr = t₀.dr) :
    Ends (restoreRegs t₀.regs error) t A (undone t₀) := by
  have hend : ∀ t₁ : Thread k, t₁.dr = t.dr → ∀ restored, Ends (do
      let restored ← verifyRegs t₀.regs restored
      failWith restored error) t₁ A (undone t₀) := by
    intro t₁ h₁ restored
    refine Ends.bind (ends_verifyRegs fun all t₂ h₂ hall => ends_failWith fun htrue => ?_)
    exact Thread.Same.restored ⟨h₂.1.trans (hall htrue).2, h₂.2.trans (h₁.trans h)⟩
  exact Ends.bind (ends_succeeds (ends_setRegs (fun t₁ _ h₁ => hend t₁ h₁ _)
    fun _ t₁ h₁ => hend t₁ h₁ _))

/-- Whatever was written so far, the rollback reads the registers back. -/
theorem ends_restoreContext {saved : List (ℕ × BitVec 64)} {error : Error}
    {A : Unit → Thread k → Prop} (hkeys : saved.map Prod.fst = indices)
    (hvalues : ∀ p ∈ saved, p.2 = t₀.dr p.1) (h : t₀.Beside indices t) :
    Ends (restoreContext t₀.regs saved error) t A (undone t₀) := by
  have hmem : ∀ p ∈ saved, p.1 ∈ indices := fun p hp => hkeys ▸ List.mem_map_of_mem hp
  have hverify : ∀ t₃ : Thread k, t₀.Beside indices t₃ → ∀ restored, Ends (do
      let restored ← verifyAll saved restored
      let restored ← verifyRegs t₀.regs restored
      failWith restored error) t₃ A (undone t₀) := by
    intro t₃ h₃ restored
    refine Ends.bind (ends_verifyAll saved fun verified t₄ h₄ hverified => ?_)
    refine Ends.bind (ends_verifyRegs fun all t₅ h₅ hall => ends_failWith fun htrue => ?_)
    obtain ⟨hdrs, hregs⟩ := hall htrue
    refine @Thread.Beside.restored _ _ _ saved ?_ (h₅.1.trans hregs) hvalues ?_
    · rw [hkeys]
      exact (h₃.trans (h₄.beside _)).trans (h₅.beside _)
    · intro p hp
      rw [h₅.2, h₄.2]
      exact (hverified hdrs).2 p hp
  have hwrite : ∀ t₁ : Thread k, t₀.Beside indices t₁ → ∀ restored, Ends (do
      let restored ← rewriteAll saved restored
      let written ← succeeds (setRegs t₀.regs)
      let restored ← verifyAll saved (written && restored)
      let restored ← verifyRegs t₀.regs restored
      failWith restored error) t₁ A (undone t₀) := by
    intro t₁ h₁ restored
    refine Ends.bind (ends_rewriteAll saved hmem fun restored t₂ _ h₂ => ?_)
    have hsame : ∀ t₃ : Thread k, t₃.dr = t₂.dr → t₀.Beside indices t₃ :=
      fun t₃ h₃ => (h₁.trans h₂).trans fun index _ => congrFun h₃ index
    exact Ends.bind (ends_succeeds (ends_setRegs (fun t₃ _ h₃ => hverify t₃ (hsame t₃ h₃) _)
      fun _ t₃ h₃ => hverify t₃ (hsame t₃ h₃) _))
  refine Ends.bind (ends_succeeds (ends_writeDr (fun t₁ _ h₁ _ => hwrite t₁ ?_ _)
    fun _ t₁ h₁ => hwrite t₁ (h.trans (h₁.beside _)) _))
  exact h.trans (h₁.mono (by decide))

theorem ends_writeDesired {c : CpuContext} :
    Ends (writeDesired c) t (fun _ t' => t'.regs = t.regs ∧ t.Beside indices t' ∧
      ∀ p ∈ c.desired, Agree (verifyMask p.1) (t'.dr p.1) p.2)
      fun _ t' => t.Beside indices t' := by
  refine Ends.bind (ends_writeDr (fun t₁ hregs₁ h₁ _ => ?_) fun _ t₁ h₁ => h₁.beside _)
  have h₁ : t.Beside indices t₁ := h₁.mono (by decide)
  exact ends_writeVerified c.desired (show indices.Nodup by decide)
    (fun t₂ hregs₂ h₂ hall => ⟨hregs₂.trans hregs₁, h₁.trans h₂, hall⟩)
    fun _ t₂ _ h₂ => h₁.trans h₂

def ContextWritten (c : CpuContext) (t t' : Thread k) : Prop :=
  t'.regs = c.over t.regs ∧
    if c.debugRegistersValid then
      t.Beside indices t' ∧ ∀ p ∈ c.desired, Agree (verifyMask p.1) (t'.dr p.1) p.2
    else t'.dr = t.dr

theorem ends_writeNativeContext (c : CpuContext) (t : Thread k) :
    Ends (writeNativeContext c) t (fun _ t' => ContextWritten c t t') (undone t) := by
  refine Ends.bind (ends_getRegs (fun t₁ h₁ => ?_) fun errno t₁ h₁ _ => h₁.restored)
  refine Ends.ite (fun _ => Ends.stop fun _ => h₁.restored) fun _ => Ends.bind ?_
  refine (ends_readSaved h₁).mono (fun saved t₂ ⟨h₂, hsaved⟩ => ?_) fun _ _ h => h
  refine Ends.bind (Ends.attempt (ends_setRegs (fun t₃ hregs₃ hdr₃ => ?_)
    fun errno t₃ hdr₃ => ends_restoreRegs (hdr₃.trans h₂.2)))
  have hdr₃ : t₃.dr = t.dr := hdr₃.trans h₂.2
  have h₃ : t.Beside indices t₃ := fun index _ => congrFun hdr₃ index
  refine Ends.ite (fun hvalid => Ends.bind (Ends.attempt ?_)) fun hnot => Ends.pure ?_
  · obtain ⟨hkeys, hvalues⟩ := hsaved hvalid
    refine ends_writeDesired.mono (fun _ t₄ ⟨hregs₄, h₄, hall⟩ => Ends.pure ?_)
      fun error t₄ h₄ => ends_restoreContext hkeys hvalues (h₃.trans h₄)
    refine ⟨hregs₄.trans hregs₃, ?_⟩
    rw [if_pos hvalid]
    exact ⟨h₃.trans h₄, hall⟩
  · refine ⟨hregs₃, ?_⟩
    rw [if_neg hnot]
    exact hdr₃

/-! ### Slots -/

theorem ends_readNativeContext (t : Thread k) :
    Ends readNativeContext t (fun _ t' => t.Same t') fun _ t' => t.Same t' := by
  have hread : ∀ (index : ℕ) {t₁ : Thread k} {A : Except Error (BitVec 64) → Thread k → Prop},
      (∀ result t₂, t₁.Same t₂ → A result t₂) →
      Ends (attempt (readDr index)) t₁ A fun _ t' => t.Same t' := fun index t₁ A h =>
    Ends.attempt (ends_readDr (fun t₂ h₂ => h _ t₂ h₂) fun errno t₂ h₂ => h _ t₂ h₂)
  refine Ends.bind (ends_getRegs (fun t₁ h₁ => ?_) fun errno t₁ h₁ => h₁)
  refine Ends.bind (hread 0 fun d0 t₂ h₂ => Ends.bind (hread 1 fun d1 t₃ h₃ => ?_))
  refine Ends.bind (hread 2 fun d2 t₄ h₄ => Ends.bind (hread 3 fun d3 t₅ h₅ => ?_))
  refine Ends.bind (hread 6 fun d6 t₆ h₆ => Ends.bind (hread 7 fun d7 t₇ h₇ => ?_))
  have hsame := h₁.trans (h₂.trans (h₃.trans (h₄.trans (h₅.trans (h₆.trans h₇)))))
  split
  · exact Ends.pure hsame
  · exact Ends.pure hsame

theorem ends_checkBreakpoint {slot length : ℕ} {address : BitVec 64}
    {access : HardwareBreakpointAccess} (t : Thread k) :
    Ends (checkBreakpoint slot address access length) t
      (fun _ t' => t.Same t' ∧ slot < 4) fun _ t' => t.Same t' := by
  refine Ends.ite (fun _ => Ends.stop (.refl t)) fun _ => ?_
  refine Ends.ite (fun _ => Ends.stop (.refl t)) fun hvalid => ?_
  have hslot : slot < 4 := Nat.lt_of_not_le fun h => hvalid (Or.inl h)
  refine Ends.ite (fun _ => Ends.bind ?_) fun _ => Ends.pure ⟨.refl t, hslot⟩
  refine (ends_readNativeContext t).mono (fun context t₁ h₁ => ?_) fun _ _ h₁ => h₁
  exact Ends.ite (fun _ => Ends.stop h₁) fun _ => Ends.pure ⟨h₁, hslot⟩

theorem ends_readSlot (slot : ℕ) (t : Thread k) :
    Ends (readSlot slot) t (fun old t' => t.Same t' ∧ old = (t.dr slot, t.dr 7))
      fun _ t' => t.Same t' := by
  have hread : ∀ (index : ℕ) {t₁ : Thread k} {A : Except Error (BitVec 64) → Thread k → Prop},
      (∀ result t₂, t₁.Same t₂ → (∀ value, result = .ok value → value = t₁.dr index) →
        A result t₂) →
      Ends (attempt (readDr index)) t₁ A fun _ t' => t.Same t' := fun index t₁ A h =>
    Ends.attempt (ends_readDr (fun t₂ h₂ => h _ t₂ h₂ (by simp))
      fun errno t₂ h₂ => h _ t₂ h₂ (by simp))
  refine Ends.bind (hread slot fun address t₁ h₁ haddress => ?_)
  refine Ends.bind (hread 7 fun control t₂ h₂ hcontrol => ?_)
  have hsame := h₁.trans h₂
  cases address with
  | error e => exact Ends.stop hsame
  | ok address =>
    cases control with
    | error e => exact Ends.stop hsame
    | ok control =>
      refine Ends.pure ⟨hsame, ?_⟩
      rw [haddress _ rfl, hcontrol _ rfl, h₁.2]

/-- The three writes and their check; where one fails, only the two registers have changed. -/
theorem ends_writeSlot {slot : ℕ} (hslot : slot < 4) (address oldControl control : BitVec 64)
    (t : Thread k) :
    Ends (writeSlot slot address oldControl control) t
      (fun _ t' => t'.regs = t.regs ∧ t.Beside [slot, 7] t' ∧ t'.dr slot = address ∧
        Agree (verifyMask 7) (t'.dr 7) control)
      fun _ t' => t'.regs = t.regs ∧ t.Beside [slot, 7] t' := by
  refine Ends.bind (ends_writeDr (fun t₁ hregs₁ h₁ _ => ?_) fun _ t₁ h₁ => ⟨h₁.1, h₁.beside _⟩)
  have h₁ : t.Beside [slot, 7] t₁ := h₁.mono (by simp)
  refine Ends.bind (ends_writeDr (fun t₂ hregs₂ h₂ _ => ?_)
    fun _ t₂ h₂ => ⟨h₂.1.trans hregs₁, h₁.trans (h₂.beside _)⟩)
  have h₂ : t.Beside [slot, 7] t₂ := h₁.trans (h₂.mono (by simp))
  have hregs₂ := hregs₂.trans hregs₁
  refine Ends.bind (ends_writeDr (fun t₃ hregs₃ h₃ _ => ?_)
    fun _ t₃ h₃ => ⟨h₃.1.trans hregs₂, h₂.trans (h₃.beside _)⟩)
  have h₃ : t.Beside [slot, 7] t₃ := h₂.trans (h₃.mono (by simp))
  have hregs₃ := hregs₃.trans hregs₂
  refine Ends.bind (ends_verifySlot fun verified t₄ h₄ hverified => ?_)
  refine Ends.ite (fun htrue => Ends.pure ?_)
    fun _ => Ends.stop ⟨h₄.1.trans hregs₃, h₃.trans (h₄.beside _)⟩
  have hagree := hverified htrue
  refine ⟨h₄.1.trans hregs₃, h₃.trans (h₄.beside _), ?_, ?_⟩
  · have haddress : Agree (verifyMask slot) (t₃.dr slot) address := hagree _ List.mem_cons_self
    rw [verifyMask, if_neg (by omega), if_neg (by omega)] at haddress
    rw [h₄.2]
    exact haddress.eq_of_allOnes
  · rw [h₄.2]
    exact hagree (7, control) (List.mem_cons_of_mem _ List.mem_cons_self)

theorem ends_restoreSlot {slot : ℕ} {error : Error} {A : Unit → Thread k → Prop}
    (hregs : t.regs = t₀.regs) (h : t₀.Beside [slot, 7] t) :
    Ends (restoreSlot slot (t₀.dr slot) (t₀.dr 7) error) t A (undone t₀) := by
  have hend : ∀ t₁ : Thread k, t₁.regs = t₀.regs → t₀.Beside [slot, 7] t₁ → ∀ restored, Ends (do
      let restored ← rewriteAll [(slot, t₀.dr slot), (7, t₀.dr 7)] restored
      let verified ← verifySlot slot (t₀.dr slot) (t₀.dr 7)
      failWith (verified && restored) error) t₁ A (undone t₀) := by
    intro t₁ hregs₁ h₁ restored
    refine Ends.bind (@ends_rewriteAll _ _ _ _ [slot, 7] _ _ (by simp)
      fun restored t₂ hregs₂ h₂ => ?_)
    refine Ends.bind (ends_verifySlot fun verified t₃ h₃ hverified => ends_failWith fun hboth => ?_)
    refine @Thread.Beside.restored _ _ _ [(slot, t₀.dr slot), (7, t₀.dr 7)]
      (h₁.trans (h₂.trans (h₃.beside _))) (h₃.1.trans (hregs₂.trans hregs₁)) (by simp) ?_
    rw [h₃.2]
    exact hverified (Bool.and_eq_true_iff.1 hboth).1
  refine Ends.bind (ends_succeeds (ends_writeDr (fun t₁ hregs₁ h₁ _ => ?_) fun _ t₁ h₁ => ?_))
  · exact hend t₁ (hregs₁.trans hregs) (h.trans (h₁.mono (by simp))) _
  · exact hend t₁ (h₁.1.trans hregs) (h.trans (h₁.beside _)) _

theorem ends_readEntries {control : BitVec 64} (list : List ℕ) {t : Thread k}
    {bank : NativeHardwareBank} {A : NativeHardwareBank → Thread k → Prop}
    {E : Error → Thread k → Prop}
    (hok : ∀ bank' t', t.Same t' → bank'.count = bank.count → bank'.status = bank.status →
      bank'.control = bank.control →
      (∀ slot ∈ list, bank'.entries slot = ⟨t.dr slot, slotControl control slot⟩) →
      (∀ slot ∉ list, bank'.entries slot = bank.entries slot) → A bank' t')
    (hfailed : ∀ errno t', t.Same t' → E (.kernel errno) t') :
    Ends (readEntries control list bank) t A E := by
  induction list generalizing t bank with
  | nil => exact Ends.pure (hok bank t (.refl t) rfl rfl rfl (by simp) fun _ _ => rfl)
  | cons slot rest ih =>
    refine Ends.bind (ends_readDr (fun t₁ h₁ => ?_) hfailed)
    refine ih (fun bank' t₂ h₂ hcount hstatus hcontrol hin hout => ?_)
      fun errno t₂ h₂ => hfailed errno t₂ (h₁.trans h₂)
    refine hok bank' t₂ (h₁.trans h₂) hcount hstatus hcontrol (fun other hother => ?_)
      fun other hother => ?_
    · by_cases hmem : other ∈ rest
      · rw [hin other hmem, h₁.2]
      · obtain rfl : other = slot := (List.mem_cons.1 hother).resolve_right hmem
        rw [hout other hmem]
        exact Function.update_self ..
    · simp only [List.mem_cons, not_or] at hother
      rw [hout other hother.2]
      exact Function.update_of_ne hother.1 ..

theorem ends_readNativeHardwareBank (t : Thread k) :
    Ends readNativeHardwareBank t (fun bank t' => t.Same t' ∧ bank.count = 4 ∧
      bank.status = t.dr 6 ∧ bank.control = t.dr 7 ∧
      ∀ slot < 4, bank.entries slot = ⟨t.dr slot, slotControl (t.dr 7) slot⟩)
      fun _ t' => t.Same t' := by
  refine Ends.bind (Ends.attempt (ends_readDr (fun t₁ h₁ => ?_) fun errno t₁ h₁ => ?_))
  · refine Ends.bind (Ends.attempt (ends_readDr (fun t₂ h₂ => ?_)
      fun errno t₂ h₂ => Ends.stop (h₁.trans h₂)))
    refine ends_readEntries _ (fun bank t₃ h₃ hcount hstatus hcontrol hin _ => ?_)
      fun errno t₃ h₃ => (h₁.trans h₂).trans h₃
    refine ⟨(h₁.trans h₂).trans h₃, hcount, by rw [hstatus, h₁.2], hcontrol, fun slot hslot => ?_⟩
    rw [hin slot (by simp; omega), (h₁.trans h₂).2]
  · exact Ends.bind (Ends.attempt (ends_readDr (fun t₂ h₂ => Ends.stop (h₁.trans h₂))
      fun errno t₂ h₂ => Ends.stop (h₁.trans h₂)))

def ReadsBack (slot : ℕ) (entry : Slot) (t : Thread k) : Prop :=
  Ends readNativeHardwareBank t (fun bank _ => bank.entries slot = entry) fun _ _ => True

theorem readsBack {slot : ℕ} (hslot : slot < 4) (t : Thread k) :
    ReadsBack slot ⟨t.dr slot, slotControl (t.dr 7) slot⟩ t :=
  (ends_readNativeHardwareBank t).mono (fun _ _ h => h.2.2.2.2 slot hslot) fun _ _ _ => trivial

def SlotSet (slot : ℕ) (address : BitVec 64) (access : HardwareBreakpointAccess) (length : ℕ)
    (t t' : Thread k) : Prop :=
  t'.regs = t.regs ∧ t.Beside [slot, 7] t' ∧ OthersKept slot (t.dr 7) (t'.dr 7) ∧
    ReadsBack slot ⟨address, breakpointControl access length⟩ t'

/-- A slot is free, and nothing else has changed. -/
def SlotRemoved (slot : ℕ) (t t' : Thread k) : Prop :=
  t'.regs = t.regs ∧ t.Beside [7] t' ∧ OthersKept slot (t.dr 7) (t'.dr 7) ∧
    ReadsBack slot ⟨t.dr slot, 0⟩ t'

theorem ends_setNativeHardwareBreakpoint (slot : ℕ) (address : BitVec 64)
    (access : HardwareBreakpointAccess) (length : ℕ) (t : Thread k) :
    Ends (setNativeHardwareBreakpoint slot address access length) t
      (fun _ t' => SlotSet slot address access length t t') (undone t) := by
  refine Ends.bind ((ends_checkBreakpoint t).mono (fun _ t₁ ⟨h₁, hslot⟩ => ?_)
    fun _ _ h₁ _ => h₁.restored)
  refine Ends.bind ((ends_readSlot slot t₁).mono (fun old t₂ ⟨h₂, hold⟩ => ?_)
    fun _ _ h₂ _ => (h₁.trans h₂).restored)
  have h₂ := h₁.trans h₂
  rw [h₁.2] at hold
  subst hold
  refine Ends.bind (Ends.attempt ((ends_writeSlot hslot _ _ _ t₂).mono ?_ ?_))
  · rintro _ t₃ ⟨hregs₃, h₃, haddress, hcontrol⟩
    refine Ends.pure ⟨hregs₃.trans h₂.1, (h₂.beside _).trans h₃, othersKept_enabled hslot hcontrol,
      ?_⟩
    have hback := readsBack hslot t₃
    rwa [haddress, slotControl_of_enabled hslot hcontrol] at hback
  · rintro error t₃ ⟨hregs₃, h₃⟩
    exact ends_restoreSlot (hregs₃.trans h₂.1) ((h₂.beside _).trans h₃)

theorem ends_removeNativeHardwareBreakpoint (slot : ℕ) (t : Thread k) :
    Ends (removeNativeHardwareBreakpoint slot) t (fun _ t' => SlotRemoved slot t t')
      (undone t) := by
  refine Ends.ite (fun _ => Ends.stop fun _ => (Thread.Same.refl t).restored) fun hvalid => ?_
  have hslot : slot < 4 := Nat.lt_of_not_le hvalid
  refine Ends.bind (ends_readDr (fun t₁ h₁ => ?_) fun _ _ h₁ _ => h₁.restored)
  refine Ends.bind (ends_writeDr (fun t₂ hregs₂ h₂ _ => ?_)
    fun _ t₂ h₂ _ => (h₁.trans h₂).restored)
  have hregs₂ := hregs₂.trans h₁.1
  have h₂ : t.Beside [7] t₂ := (h₁.beside _).trans h₂
  refine Ends.bind (ends_verifyDr fun verified t₃ h₃ hverified => ?_)
  have h₃' : t.Beside [7] t₃ := h₂.trans (h₃.beside _)
  refine Ends.ite (fun htrue => Ends.pure ?_) fun _ => Ends.bind ?_
  · have hcontrol : Agree (verifyMask 7) (t₃.dr 7) (cleared (t.dr 7) slot) := by
      rw [h₃.2]
      exact hverified htrue
    refine ⟨h₃.1.trans hregs₂, h₃', othersKept_cleared hcontrol, ?_⟩
    have hback := readsBack hslot t₃
    rwa [h₃' slot (by simp; omega), slotControl_of_cleared hslot hcontrol] at hback
  · refine ends_succeeds (ends_writeDr (fun t₄ hregs₄ h₄ _ => Ends.bind ?_)
      fun _ t₄ _ => Ends.stop fun hbroken => absurd rfl hbroken)
    refine ends_verifyDr fun restored t₅ h₅ hrestored => ends_failWith fun htrue => ?_
    refine @Thread.Beside.restored _ _ _ [(7, t.dr 7)]
      (h₃'.trans (h₄.trans (h₅.beside _))) (h₅.1.trans (hregs₄.trans (h₃.1.trans hregs₂)))
      (by simp) ?_
    simpa [h₅.2] using hrestored htrue

/-! ### The bank -/

/-- The debug registers are those of a bank, exactly where the kernel stores them as they are. -/
def BankRestored (saved : NativeHardwareBank) (t t' : Thread k) : Prop :=
  t'.regs = t.regs ∧ t.Beside indices t' ∧
    ∀ p ∈ saved.registers, Agree (verifyMask p.1) (t'.dr p.1) p.2 ∧
      t'.dr p.1 = k.stored p.1 p.2

theorem ends_restoreNativeHardwareBank (saved : NativeHardwareBank) (t : Thread k) :
    Ends (restoreNativeHardwareBank saved) t (fun _ t' => BankRestored saved t t')
      fun _ _ => True := by
  refine Ends.ite (fun _ => Ends.stop trivial) fun _ => ?_
  refine Ends.bind (ends_writeDr (fun t₁ hregs₁ h₁ _ => ?_) fun _ _ _ => trivial)
  have h₁ : t.Beside indices t₁ := h₁.mono (by decide)
  refine Ends.bind (ends_writeAll saved.registers (show indices.Nodup by decide)
    (fun t₂ hregs₂ h₂ hstored => ?_) fun _ _ => trivial)
  refine ends_requireAll saved.registers (fun t₃ h₃ hagree => ?_) fun _ _ => trivial
  refine ⟨h₃.1.trans (hregs₂.trans hregs₁), (h₁.trans h₂).trans (h₃.beside _), fun p hp => ?_⟩
  rw [h₃.2]
  exact ⟨hagree p hp, hstored p hp⟩

theorem restored_of_read (t₀ : Thread k) :
    Ends readNativeHardwareBank t₀ (fun saved _ => ∀ t : Thread k,
      Ends (restoreNativeHardwareBank saved) t
        (fun _ t' => ∀ index ∈ indices, t'.dr index = t₀.dr index) fun _ _ => True)
      fun _ _ => True := by
  refine (ends_readNativeHardwareBank t₀).mono (fun saved _ hsaved t => ?_) fun _ _ _ => trivial
  obtain ⟨-, -, hstatus, hcontrol, hentries⟩ := hsaved
  refine (ends_restoreNativeHardwareBank saved t).mono (fun _ t' h => ?_) fun _ _ _ => trivial
  have hvalues : ∀ p ∈ saved.registers, p.2 = t₀.dr p.1 := by
    simp [NativeHardwareBank.registers, hstatus, hcontrol, hentries]
  intro index hindex
  obtain ⟨p, hp, rfl⟩ := List.mem_map.1 (show index ∈ saved.registers.map Prod.fst from hindex)
  rw [(h.2.2 p hp).2, hvalues p hp]
  exact t₀.kept p.1

/-! ### All or nothing -/

/-- Whichever calls fail: a context or a slot that was written is the one asked for, and nothing
else has changed; after an error the registers are those from before, unless the error says that
they could not be restored; and a bank that was restored is the one that was read. -/
theorem registers_written_or_restored (k : Kernel) (t : Thread k) :
    (∀ c, Ends (writeNativeContext c) t (fun _ t' => ContextWritten c t t')
      fun e t' => e ≠ .brokenRestore → t.Restored t') ∧
    (∀ slot address access length, Ends (setNativeHardwareBreakpoint slot address access length) t
      (fun _ t' => SlotSet slot address access length t t')
      fun e t' => e ≠ .brokenRestore → t.Restored t') ∧
    (∀ slot, Ends (removeNativeHardwareBreakpoint slot) t (fun _ t' => SlotRemoved slot t t')
      fun e t' => e ≠ .brokenRestore → t.Restored t') ∧
    (∀ saved, Ends (restoreNativeHardwareBank saved) t (fun _ t' => BankRestored saved t t')
      fun _ _ => True) ∧
    Ends readNativeHardwareBank t (fun saved _ => ∀ t₁ : Thread k,
      Ends (restoreNativeHardwareBank saved) t₁
        (fun _ t' => ∀ index ∈ indices, t'.dr index = t.dr index) fun _ _ => True)
      fun _ _ => True :=
  ⟨fun c => ends_writeNativeContext c t,
    fun slot address access length => ends_setNativeHardwareBreakpoint slot address access length t,
    fun slot => ends_removeNativeHardwareBreakpoint slot t,
    fun saved => ends_restoreNativeHardwareBank saved t,
    restored_of_read t⟩

/-- A kernel where one write of a debug register fails; DR7 stores its tenth bit as one. -/
def oneFailure : Kernel where
  getRegs _ := none
  setRegs _ := none
  peekUser _ := none
  pokeUser now := if now = 4 then some 5 else none
  stored index value := if index = 7 then value ||| 0x400#64 else value
  stored_stored index value := by
    split
    · rw [BitVec.or_assoc, BitVec.or_self]
    · rfl

def idleThread : Thread oneFailure where
  regs := ⟨0, 0, 0, 0, 0, 0, 0, 0, 0, 0, 0, 0, 0, 0, 0, 0, 0x401000, 0x33, 0x202, 0, 0x2b, 0, 0, 0,
    0, 0, 0⟩
  dr index := if index = 7 then 0x400#64 else 0
  kept index := by
    unfold oneFailure
    dsimp only
    split <;> rfl

/-- The write that enables the slot fails, and the slot is put back. -/
theorem registers_written_or_restored_oneFailure : ∃ t',
    finish (setNativeHardwareBreakpoint 0 0x401000#64 .execute 1) idleThread =
      (.error (.kernel 5), t') ∧ idleThread.Restored t' := by
  have h := (registers_written_or_restored oneFailure idleThread).2.1 0 0x401000#64 .execute 1
  have hrun : (finish (setNativeHardwareBreakpoint 0 0x401000#64 .execute 1) idleThread).1 =
      .error (.kernel 5) := by decide
  unfold Ends at h
  split at h
  · rename_i hok
    rw [hok] at hrun
    cases hrun
  · rename_i e t' herror
    rw [herror] at hrun
    cases hrun
    exact ⟨t', herror, h (by decide)⟩

end CheatEngine.TargetDebug
