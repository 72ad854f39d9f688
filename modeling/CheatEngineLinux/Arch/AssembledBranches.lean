import CheatEngineLinux.Arch.Assembler

/-!
# Where assembled branches and operands lead

* `NearExact`: what `jmp near` must give.
* `BranchLands`, `MemoryReaches`: what every other branch and every memory operand must reach.
* `Faithful`: what the code relies on of the disassembler.
* `KeystoneSafe`: the answers of Keystone that the code makes the right ones of.

* **PROVED `landing_near`**: the displacement of `jmp near`.
* **PROVED `fixBlock_spec`**: the operands of a block, instruction for instruction.
* **PROVED `assembled_iff`**: `jmp near` is exact, and everything else leads where it was written
  to lead exactly on those answers.
-/

namespace CheatEngine.Assembler

open JsonGrammar (Bytes)
open CtFile (lit)
open Disassembler (Capstone Instruction)
open RecordFile NearJump RelativeBranch

/-! ### Distances -/

section Distances

variable {target next address : UInt64} {bits : UInt32}

theorem signed_bits {v : ℤ} (hmod : (bits.toNat : ℤ) = v % 2 ^ 32) (hlow : -2 ^ 31 ≤ v)
    (hhigh : v < 2 ^ 31) : signed (leBytes 4 bits.toNat) = v := by
  have hpow : (256 : ℤ) ^ 4 = 2 ^ 32 := by norm_num
  refine signed_leBytes (by decide) ?_ ?_ ?_
  · rw [hpow, hmod]
    exact Int.mod_modEq _ _
  · rw [hpow]
    omega
  · rw [hpow]
    omega

theorem nearBits_signed (h : nearBits target next = some bits) :
    signed (leBytes 4 bits.toNat) = (target.toNat : ℤ) - next.toNat := by
  have ht := target.toNat_lt
  have hn := next.toNat_lt
  rw [nearBits] at h
  split at h
  · rename_i hle
    split at h
    · rename_i hnear
      have hsub := UInt64.toNat_sub_of_le _ _ hle
      rw [UInt64.le_iff_toNat_le] at hle hnear
      rw [hsub, show (0x7fffffff : UInt64).toNat = 2 ^ 31 - 1 from rfl] at hnear
      rw [← Option.some.inj h]
      refine signed_bits ?_ (by omega) (by omega)
      rw [UInt64.toNat_toUInt32, hsub]
      omega
    · cases h
  · rename_i hle
    split at h
    · rename_i hnear
      rw [UInt64.le_iff_toNat_le] at hle
      have hsub := UInt64.toNat_sub_of_le next target (UInt64.le_iff_toNat_le.2 (by omega))
      rw [UInt64.le_iff_toNat_le] at hnear
      rw [hsub, show (0x80000000 : UInt64).toNat = 2 ^ 31 from rfl] at hnear
      rw [← Option.some.inj h]
      refine signed_bits ?_ (by omega) (by omega)
      rw [UInt64.toNat_toUInt32, UInt64.toNat_sub, hsub, show (0 : UInt64).toNat = 0 from rfl]
      omega
    · cases h

theorem signed_difference :
    signed (leBytes 4 (target.toUInt32 - next.toUInt32).toNat) ≡
      target.toNat - next.toNat [ZMOD 2 ^ 32] := by
  have hbits : ((target.toUInt32 - next.toUInt32).toNat : ℤ) ≡
      target.toNat - next.toNat [ZMOD 2 ^ 32] := by
    rw [UInt32.toNat_sub, UInt64.toNat_toUInt32, UInt64.toNat_toUInt32, Int.ModEq]
    omega
  have hsigned := signed_modEq (leBytes 4 (target.toUInt32 - next.toUInt32).toNat)
  rw [leBytes_length, leNat_leBytes 4 _ (UInt32.toNat_lt _),
    show (256 : ℤ) ^ 4 = 2 ^ 32 by norm_num] at hsigned
  exact hsigned.trans hbits

/-- The displacement of `jmp near` leads to the destination. -/
theorem landing_near {arch : AsmArch} {d bytes : Bytes} (h : nearJump arch address d = .ok bytes) :
    ∃ target disp, number d = some target ∧ bytes = 0xe9 :: disp ∧ disp.length = 4 ∧
      landing (space (arch == .x86_32)) (address.toNat + 5) (signed disp) = target.toNat := by
  rw [nearJump] at h
  cases hd : number d with
  | none =>
    rw [hd] at h
    cases h
  | some target =>
    rw [hd] at h
    dsimp only at h
    split at h
    · cases h
    rename_i hroom
    have ht := target.toNat_lt
    have hnext : (address + 5).toNat = address.toNat + 5 := by
      rw [gt_iff_lt, UInt64.lt_iff_toNat_lt] at hroom
      rw [UInt64.toNat_add, show (5 : UInt64).toNat = 5 from rfl]
      rw [show (0xffffffffffffffff - 5 : UInt64).toNat = 2 ^ 64 - 6 from rfl] at hroom
      omega
    by_cases harch : arch = .x86_32
    · rw [if_pos harch] at h
      split at h
      · cases h
      rename_i hfits
      rw [not_or, gt_iff_lt, UInt64.lt_iff_toNat_lt] at hfits
      have hlt := hfits.1
      rw [show (0xffffffff : UInt64).toNat = 2 ^ 32 - 1 from rfl] at hlt
      refine ⟨target, _, rfl, (Except.ok.inj h).symm, leBytes_length _ _, ?_⟩
      rw [harch, show space (AsmArch.x86_32 == .x86_32) = 2 ^ 32 from rfl]
      have hland := (Int.ModEq.refl ((address.toNat + 5 : ℕ) : ℤ)).add
        (@signed_difference target (address + 5))
      rw [hnext, add_sub_cancel] at hland
      rw [landing_of_modEq (by exact_mod_cast hland), Nat.mod_eq_of_lt (by omega)]
    · rw [if_neg harch] at h
      split at h
      · cases h
      rename_i bits hbits
      refine ⟨target, _, rfl, (Except.ok.inj h).symm, leBytes_length _ _, ?_⟩
      rw [show (arch == .x86_32) = false from beq_false_of_ne harch]
      have hsigned := nearBits_signed hbits
      rw [hnext] at hsigned
      rw [hsigned, landing, add_sub_cancel, show space false = 2 ^ 64 from rfl]
      omega

end Distances

/-! ### Branches -/

section Branches

variable {code32 : Bool} {a : ℕ} {b : Bytes} {rel : ℤ}

theorem directBranch_of_encodedBranch (h : encodedBranch b = some rel) :
    directBranch code32 a b = some (landing (space code32) (a + b.length) rel) := by
  rcases b with _ | ⟨op, rest⟩
  · cases h
  rw [encodedBranch, List.headD_cons] at h
  split at h
  · rename_i hnear
    rw [Bool.and_eq_true] at hnear
    split at h
    · rename_i hlen
      rw [← Option.some.inj h, hlen]
      exact directBranch_near hnear.1 (Nat.succ.inj hlen)
    · cases h
  split at h
  · rename_i hshort
    rw [Bool.and_eq_true] at hshort
    split at h
    · rename_i hlen
      rw [← Option.some.inj h, hlen]
      exact directBranch_short hshort.1 (Nat.succ.inj hlen)
    · cases h
  split at h
  · rename_i hcond
    rw [Bool.and_eq_true, Bool.and_eq_true, beq_iff_eq] at hcond
    obtain ⟨⟨rfl, -⟩, hop⟩ := hcond
    split at h
    · rename_i hlen
      rcases rest with _ | ⟨op', disp⟩
      · cases hlen
      rw [← Option.some.inj h, hlen]
      exact directBranch_cond hop (Nat.succ.inj (Nat.succ.inj hlen))
    · cases h
  · cases h

variable {arch : AsmArch} {address : UInt64} {text : Bytes} {target : UInt64}

theorem codeAddress_toNat (arch : AsmArch) (x : UInt64) :
    (codeAddress arch x).toNat = x.toNat % space (arch == .x86_32) := by
  rw [codeAddress]
  by_cases h : arch = .x86_32
  · rw [if_pos h, h, UInt64.toNat_and]
    exact Nat.and_two_pow_sub_one_eq_mod x.toNat 32
  · rw [if_neg h, show (arch == .x86_32) = false from beq_false_of_ne h]
    exact (Nat.mod_eq_of_lt x.toNat_lt).symm

theorem toNat_landed (n : ℕ) (rel : ℤ) :
    (address + UInt64.ofNat n + UInt64.ofInt rel).toNat =
      landing (2 ^ 64) (address.toNat + n) rel := by
  have ha := address.toNat_lt
  rw [UInt64.toNat_add, UInt64.toNat_add, UInt64.ofInt, UInt64.toNat_ofNat', UInt64.toNat_ofNat',
    landing]
  omega

theorem landing_of_verifyBranch {mnemonic rest : Bytes}
    (hsplit : splitMnemonic text = some (mnemonic, rest)) (hbranch : isBranch mnemonic = true)
    (htarget : number rest = some target) (hrel : encodedBranch b = some rel)
    (h : verifyBranch address arch text b = .ok ()) :
    landing (space (arch == .x86_32)) (address.toNat + b.length) rel =
      target.toNat % space (arch == .x86_32) := by
  rw [verifyBranch, hsplit] at h
  dsimp only at h
  rw [if_pos hbranch, htarget, hrel] at h
  dsimp only at h
  split at h
  · cases h
  rename_i hsame
  have hsame' := congrArg UInt64.toNat (not_not.1 hsame)
  rw [codeAddress_toNat, codeAddress_toNat, toNat_landed] at hsame'
  rw [← hsame', landing, landing]
  cases arch == .x86_32 with
  | true =>
    rw [show space true = 2 ^ 32 from rfl]
    omega
  | false =>
    rw [show space false = 2 ^ 64 from rfl]
    omega

end Branches

/-! ### Texts without brackets -/

section Plain

theorem afterLabels_suffix (fuel : ℕ) (s : Bytes) : afterLabels fuel s <:+ s := by
  induction fuel generalizing s with
  | zero => exact List.suffix_refl _
  | succ fuel ih =>
    rw [afterLabels]
    split
    · exact (ih _).trans <| (List.drop_suffix _ _).trans <|
        (List.dropWhile_suffix _).trans (List.dropWhile_suffix _)
    · exact List.dropWhile_suffix _

theorem scanStatement_plain {statement : Bytes} (h : 0x5b ∉ statement) :
    ∃ targets, scanStatement statement = .ok (statement, targets) ∧
      targets.any Option.isSome = false := by
  rw [scanStatement]
  split
  · exact ⟨_, rfl, rfl⟩
  · have hrest : (afterLabels (statement.length + 1) statement).contains 0x5b = false := by
      rw [← Bool.not_eq_true, List.contains_iff_mem]
      exact fun hmem => h ((afterLabels_suffix _ _).subset hmem)
    rw [operandText, hrest]
    exact ⟨_, rfl, rfl⟩

theorem scanStatements_plain {statements : List (Bytes × Option UInt8)}
    (h : ∀ s ∈ statements, 0x5b ∉ s.1) :
    ∃ targets, scanStatements statements = .ok (joined statements, targets) ∧
      targets.any Option.isSome = false := by
  induction statements with
  | nil => exact ⟨_, rfl, rfl⟩
  | cons s more ih =>
    obtain ⟨here, hhere, hnone⟩ := scanStatement_plain (h s (List.mem_cons_self ..))
    obtain ⟨rest, hrest, hnone'⟩ := ih fun s' hs' => h s' (List.mem_cons_of_mem _ hs')
    refine ⟨here ++ rest, ?_, by rw [List.any_append, hnone, hnone']; rfl⟩
    obtain ⟨statement, stop⟩ := s
    rw [scanStatements, hhere, hrest]
    rfl

theorem memoryTargets_plain {arch : AsmArch} {text : Bytes} (h : 0x5b ∉ text) :
    ∃ targets, memoryTargets arch text = .ok (text, targets) ∧
      targets.any Option.isSome = false := by
  rw [memoryTargets]
  split
  · have hplain : ∀ s ∈ splitStatements text, 0x5b ∉ s.1 := by
      intro s hs hmem
      refine h ?_
      rw [← joined_splitStatements text]
      exact List.mem_flatMap.2 ⟨s, hs, List.mem_append_left _ hmem⟩
    obtain ⟨targets, hscan, hnone⟩ := scanStatements_plain hplain
    rw [joined_splitStatements] at hscan
    exact ⟨targets, hscan, hnone⟩
  · exact ⟨_, rfl, rfl⟩

end Plain

/-! ### Memory operands -/

/-- Capstone decodes an instruction from its own bytes, and other bytes of a displacement make the
same instruction with another displacement. -/
structure Faithful (cs : Capstone) (enc : Instruction → Encoding) : Prop where
  bytes : ∀ a code insn, cs.one a code = some insn → insn.bytes = code.take insn.size
  own : ∀ a code insn more, cs.one a code = some insn →
    cs.one a (code.take insn.size ++ more) = some insn
  displacement : ∀ a code insn bits, cs.one a code = some insn → insn.memory.ripRelative = true →
    (enc insn).dispSize = 4 → (enc insn).dispOffset + 4 ≤ insn.size →
    ∃ insn', cs.one a (putBits (code.take insn.size) (enc insn).dispOffset bits) = some insn' ∧
      insn'.size = insn.size ∧ insn'.memory.present = true ∧ insn'.memory.ripRelative = true ∧
      insn'.memory.disp = signed (leBytes 4 bits.toNat) ∧
      (enc insn').segmentReg = (enc insn).segmentReg

/-- The segments with a base of their own in 64-bit code. -/
def basedSegment (segment : Bytes) : Bool := segment == lit "fs" || segment == lit "gs"

/-- The address of the memory operand of an instruction, where it depends on no register; like
`computeEffectiveAddress`, with addresses of 64 bits. -/
def addressed (enc : Instruction → Encoding) (insn : Instruction) : Option UInt64 :=
  if !insn.memory.present || basedSegment (enc insn).segmentReg then none
  else if insn.memory.ripRelative then
    some (insn.address + UInt64.ofNat insn.size + UInt64.ofInt insn.memory.disp)
  else if insn.memory.baseReg.isEmpty && insn.memory.indexReg.isEmpty then
    some (UInt64.ofInt insn.memory.disp)
  else none

/-- The operand of an instruction that Keystone made has no register but that of the next
instruction. -/
def Registerless (enc : Instruction → Encoding) (insn : Instruction) : Prop :=
  basedSegment (enc insn).segmentReg = false ∧
    (insn.memory.ripRelative = false → insn.memory.baseReg = [] ∧ insn.memory.indexReg = [])

section Operands

variable {cs : Capstone} {enc : Instruction → Encoding} {address : UInt64}

theorem ofInt_toInt64 (x : UInt64) : UInt64.ofInt x.toInt64.toInt = x := by
  have hx := x.toNat_lt
  rw [← UInt64.toNat_inj, UInt64.ofInt, UInt64.toNat_ofNat', Int64.toInt, UInt64.toBitVec_toInt64,
    BitVec.toInt_eq_toNat_bmod, UInt64.toNat_toBitVec, Int.bmod]
  omega

theorem add_ofInt_sub (target next : UInt64) :
    next + UInt64.ofInt ((target.toNat : ℤ) - next.toNat) = target := by
  have ht := target.toNat_lt
  have hn := next.toNat_lt
  rw [← UInt64.toNat_inj, UInt64.toNat_add, UInt64.ofInt, UInt64.toNat_ofNat']
  omega

theorem putBits_length {result : Bytes} {offset : ℕ} {bits : UInt32}
    (h : offset + 4 ≤ result.length) : (putBits result offset bits).length = result.length := by
  rw [putBits, List.length_append, List.length_append, leBytes_length, List.length_take,
    List.length_drop]
  omega

theorem putBits_append {before chunk more : Bytes} {offset : ℕ} {bits : UInt32}
    (h : offset + 4 ≤ chunk.length) :
    putBits (before ++ (chunk ++ more)) (before.length + offset) bits =
      before ++ (putBits chunk offset bits ++ more) := by
  rw [putBits, putBits, List.take_length_add_append, Nat.add_assoc, List.drop_length_add_append,
    List.take_append_of_le_length (by omega), List.drop_append_of_le_length h]
  simp only [List.append_assoc]

/-- One turn of the loop: in place of the instruction one that reaches the destination, unless a
register stands in the way. -/
theorem fixOperand_spec (hcs : Faithful cs enc) {before code fixed : Bytes} {insn : Instruction}
    {target : Option UInt64} {a : UInt64} (hone : cs.one a code = some insn)
    (hplace : (a - address).toNat = before.length)
    (h : fixOperand enc address (before ++ code) insn target = .ok fixed) :
    ∃ chunk insn', fixed = before ++ (chunk ++ code.drop insn.size) ∧ chunk.length = insn.size ∧
      insn'.size = insn.size ∧ (∀ more, cs.one a (chunk ++ more) = some insn') ∧
      ∀ t, target = some t → (addressed enc insn' = some t ↔ Registerless enc insn) := by
  obtain ⟨haddress, hpos, hle⟩ := cs.one_some _ _ _ hone
  have hchunk : (code.take insn.size).length = insn.size := List.length_take_of_le hle
  have hsame : ∀ more, cs.one a (code.take insn.size ++ more) = some insn :=
    fun more => hcs.own a code insn more hone
  cases target with
  | none =>
    refine ⟨code.take insn.size, insn, ?_, hchunk, rfl, hsame, fun t ht => nomatch ht⟩
    rw [List.take_append_drop]
    exact (Except.ok.inj h).symm
  | some target =>
    rw [fixOperand] at h
    split at h
    · rename_i hrip
      rw [Bool.not_eq_true'] at hrip
      split at h
      · cases h
      rename_i hdisp
      rw [Bool.or_eq_true, not_or, Bool.not_eq_true', bne_iff_ne, not_not,
        Bool.not_eq_false] at hdisp
      refine ⟨code.take insn.size, insn, ?_, hchunk, rfl, hsame, ?_⟩
      · rw [List.take_append_drop]
        exact (Except.ok.inj h).symm
      · rintro t ⟨⟩
        rw [addressed, hdisp.1, hdisp.2, hrip, ofInt_toInt64, Registerless, hrip]
        cases basedSegment (enc insn).segmentReg with
        | true => simp
        | false =>
          rw [← List.isEmpty_iff (l := insn.memory.baseReg), ← List.isEmpty_iff]
          cases insn.memory.baseReg.isEmpty <;> cases insn.memory.indexReg.isEmpty <;> simp
    · rename_i hrip
      rw [Bool.not_eq_true', Bool.not_eq_false] at hrip
      split at h
      · cases h
      rename_i hsize
      rw [Bool.or_eq_true, not_or, bne_iff_ne, not_not, decide_eq_true_eq, not_lt,
        hcs.bytes _ _ _ hone, hchunk] at hsize
      split at h
      · cases h
      rename_i bits hbits
      obtain ⟨insn', hone', hsize', hpresent, hrip', hdisp, hsegment⟩ :=
        hcs.displacement a code insn bits hone hrip hsize.1 hsize.2
      have hlen := @putBits_length (code.take insn.size) (enc insn).dispOffset bits (by omega)
      refine ⟨_, insn', ?_, hlen.trans hchunk, hsize', fun more => ?_, ?_⟩
      · rw [← putBits_append (by omega), List.take_append_drop, ← hplace, ← haddress]
        exact (Except.ok.inj h).symm
      · have hmore := hcs.own a _ insn' more hone'
        rwa [hsize', List.take_of_length_le (by omega)] at hmore
      · rintro t ⟨⟩
        rw [addressed, hpresent, hrip', hdisp, nearBits_signed hbits, hsegment, Registerless, hrip,
          hsize', (cs.one_some _ _ _ hone').1, haddress, add_ofInt_sub]
        cases basedSegment (enc insn).segmentReg <;> simp

/-- Instruction for instruction a destination is reached, unless a register stands in the way. -/
def Reached (enc : Instruction → Encoding) (targets : List (Option UInt64))
    (insns insns' : List Instruction) : Prop :=
  ∀ (i : ℕ) (target : UInt64), targets[i]? = some (some target) →
    ∃ insn insn', insns[i]? = some insn ∧ insns'[i]? = some insn' ∧
      (addressed enc insn' = some target ↔ Registerless enc insn)

theorem fixOperands_spec (hcs : Faithful cs enc) {turns : ℕ} {before code result : Bytes}
    {targets : List (Option UInt64)} (hturns : code.length ≤ turns)
    (hroom : before.length + code.length < 2 ^ 64)
    (hlen : (Disassembler.csDisasm cs turns (address + UInt64.ofNat before.length) code 0).length =
      targets.length)
    (h : fixOperands enc address (before ++ code)
      ((Disassembler.csDisasm cs turns (address + UInt64.ofNat before.length) code 0).zip targets) =
        .ok result) :
    ∃ code', result = before ++ code' ∧ code'.length = code.length ∧
      Reached enc targets
        (Disassembler.csDisasm cs turns (address + UInt64.ofNat before.length) code 0)
        (Disassembler.csDisasm cs turns (address + UInt64.ofNat before.length) code' 0) := by
  induction turns generalizing before code targets with
  | zero =>
    rw [Disassembler.csDisasm] at h hlen
    obtain rfl : targets = [] := List.length_eq_zero_iff.1 hlen.symm
    exact ⟨code, (Except.ok.inj h).symm, rfl, fun i target ht => (by cases ht)⟩
  | succ turns ih =>
    cases hone : cs.one (address + UInt64.ofNat before.length) code with
    | none =>
      rw [Disassembler.csDisasm, hone] at h hlen
      obtain rfl : targets = [] := List.length_eq_zero_iff.1 hlen.symm
      exact ⟨code, (Except.ok.inj h).symm, rfl, fun i target ht => (by cases ht)⟩
    | some insn =>
      obtain ⟨-, hpos, hle⟩ := cs.one_some _ _ _ hone
      rw [Disassembler.csDisasm, hone] at h hlen
      rcases targets with _ | ⟨t, targets⟩
      · cases hlen
      dsimp only at h hlen
      rw [if_neg (by decide), List.zip_cons_cons, fixOperands] at h
      rw [if_neg (by decide), List.length_cons, List.length_cons] at hlen
      cases hfixed : fixOperand enc address (before ++ code) insn t with
      | error e =>
        rw [hfixed] at h
        cases h
      | ok fixed =>
        rw [hfixed] at h
        replace h : fixOperands enc address fixed _ = .ok result := h
        have hplace : (address + UInt64.ofNat before.length - address).toNat = before.length := by
          rw [UInt64.add_comm, UInt64.add_sub_cancel,
            UInt64.toNat_ofNat_of_lt' (show _ < 2 ^ 64 by omega)]
        obtain ⟨chunk, insn', rfl, hchunk, hsize, hmore, haddressed⟩ :=
          fixOperand_spec hcs hone hplace hfixed
        have hbefore : (before ++ chunk).length = before.length + insn.size := by
          rw [List.length_append, hchunk]
        have hnext : address + UInt64.ofNat before.length + UInt64.ofNat insn.size =
            address + UInt64.ofNat (before ++ chunk).length := by
          rw [hbefore, UInt64.ofNat_add, UInt64.add_assoc]
        have hdrop : (code.drop insn.size).length = code.length - insn.size := List.length_drop
        rw [hnext, ← List.append_assoc] at h
        rw [hnext] at hlen
        obtain ⟨code', hresult, hlen', hall⟩ := ih (by omega) (by omega) (Nat.succ.inj hlen) h
        refine ⟨chunk ++ code', by rw [hresult, List.append_assoc], ?_, ?_⟩
        · rw [List.length_append]
          omega
        · rw [Disassembler.csDisasm, hone, Disassembler.csDisasm, hmore code']
          dsimp only
          rw [if_neg (by decide), if_neg (by decide), hsize, hnext]
          have hrest : (chunk ++ code').drop insn.size = code' := by rw [← hchunk, List.drop_left]
          rw [hrest]
          rintro (_ | i) target hi
          · exact ⟨insn, insn', rfl, rfl, haddressed target (Option.some.inj hi)⟩
          · exact hall i target hi

theorem fixBlock_spec (hcs : Faithful cs enc) {encoded result : Bytes}
    {targets : List (Option UInt64)} (h : fixBlock cs enc address encoded targets = .ok result) :
    Reached enc targets (Disassembler.disassemble cs .x86_64 address encoded 0 false)
      (Disassembler.disassemble cs .x86_64 address result 0 false) := by
  have hdis : ∀ code : Bytes, Disassembler.disassemble cs .x86_64 address code 0 false =
      Disassembler.csDisasm cs code.length (address + UInt64.ofNat ([] : Bytes).length) code 0 := by
    rintro (_ | ⟨b, rest⟩)
    · rfl
    · rw [Disassembler.disassemble, List.length_cons, Disassembler.disassembleLoop]
      rfl
  rw [fixBlock] at h
  split at h
  · cases h
  rename_i hfits
  dsimp only at h
  split at h
  · cases h
  rename_i hmatch
  rw [not_or, not_not] at hmatch
  rw [hdis] at h hmatch
  obtain ⟨code', hresult, hlen, hall⟩ := @fixOperands_spec cs enc address hcs _ [] encoded result
    targets (Nat.le_refl _) (by rw [List.length_nil]; omega) hmatch.1 h
  rw [hdis, hdis, hresult, List.nil_append, hlen]
  exact hall

end Operands

/-! ### What was written -/

def theStatement (text : Bytes) : Option Bytes :=
  match ((splitStatements text).map Prod.fst).filter (·.any fun c => !CtFile.isSpace c) with
  | [statement] => some (CtFile.trimSpace statement)
  | _ => none

def withoutDistance (s : Bytes) : Bytes :=
  let here := s.dropWhile CtFile.isBlank
  let word := here.takeWhile (!CtFile.isBlank ·)
  if [lit "short", lit "near"].contains (lower word) then here.drop word.length else s

/-- The number that the only statement of a text jumps to or calls. -/
def branchDestination (text : Bytes) : Option UInt64 :=
  if text.contains 0x5b then none
  else
    (theStatement text).bind fun statement => (splitMnemonic statement).bind fun m =>
      if isBranch m.1 then number (withoutDistance m.2) else none

section Claims

variable (cs : Capstone) (enc : Instruction → Encoding) (address : UInt64) (arch : AsmArch)
  (ks : Keystone) (code : Bytes)

/-- `jmp near` gives five bytes that lead to its destination, and nothing where no displacement
leads there. -/
def NearExact : Prop :=
  isNearJump arch (normalize arch code) = true →
    (∀ result n, assembleEx cs enc address arch ks code = .ok (result, n) →
      result.length = 5 ∧ result.head? = some 0xe9 ∧
        ∃ target, number ((normalize arch code).drop 9) = some target ∧
          directBranch (arch == .x86_32) address.toNat result = some target.toNat) ∧
    ∀ target, number ((normalize arch code).drop 9) = some target →
      (∀ rel : ℤ, -2 ^ 31 ≤ rel → rel < 2 ^ 31 →
        landing (space (arch == .x86_32)) (address.toNat + 5) rel ≠ target.toNat) →
      ∃ e, assembleEx cs enc address arch ks code = .error e

def BranchLands (bytes : Bytes) : Prop :=
  ∀ target landed, branchDestination (normalize arch code) = some target →
    directBranch (arch == .x86_32) address.toNat bytes = some landed →
    landed = target.toNat % space (arch == .x86_32)

/-- Instruction for instruction the operands of bytes are at the destinations of the statements. -/
def MemoryReaches (bytes : Bytes) : Prop :=
  ∀ text targets, memoryTargets arch (normalize arch code) = .ok (text, targets) →
    ∀ (i : ℕ) (target : UInt64), targets[i]? = some (some target) →
      ∃ insn, (Disassembler.disassemble cs .x86_64 address bytes 0 false)[i]? = some insn ∧
        addressed enc insn = some target

/-- The code looks at what Keystone made of a branch: it says that it was one statement, nothing
but the number is behind the mnemonic, and the encoding is one that the code knows. -/
def BranchChecked (encoded : Bytes) (count : ℕ) (target : UInt64) : Prop :=
  count = 1 ∧ (encodedBranch encoded).isSome = true ∧
    ∃ mnemonic rest, splitMnemonic (normalize arch code) = some (mnemonic, rest) ∧
      isBranch mnemonic = true ∧ number rest = some target

/-- What Keystone made of a branch is looked at, or has the right displacement already. -/
def BranchSafe (encoded : Bytes) (count : ℕ) : Prop :=
  ∀ target landed, branchDestination (normalize arch code) = some target →
    directBranch (arch == .x86_32) address.toNat encoded = some landed →
    ¬BranchChecked arch code encoded count target →
    landed = target.toNat % space (arch == .x86_32)

/-- No operand with a destination has another register than that of the next instruction. -/
def MemorySafe (encoded : Bytes) : Prop :=
  ∀ text targets, memoryTargets arch (normalize arch code) = .ok (text, targets) →
    ∀ (i : ℕ) (target : UInt64), targets[i]? = some (some target) →
      ∀ insn, (Disassembler.disassemble cs .x86_64 address encoded 0 false)[i]? = some insn →
        Registerless enc insn

/-- What Keystone answers, for a code that it is asked for. -/
def KeystoneSafe : Prop :=
  isNearJump arch (normalize arch code) = false →
    ∀ text targets encoded count, memoryTargets arch (normalize arch code) = .ok (text, targets) →
      ks text address = .ok (encoded, count) →
      BranchSafe address arch code encoded count ∧ MemorySafe cs enc address arch code encoded

/-- The code leads where it was written to lead, in every way. -/
def Reaches (result : Bytes) : Prop :=
  isNearJump arch (normalize arch code) = false →
    BranchLands address arch code result ∧ MemoryReaches cs enc address arch code result

end Claims

section Assembled

variable {cs : Capstone} {enc : Instruction → Encoding} {address : UInt64} {arch : AsmArch}
  {ks : Keystone} {code result : Bytes} {n : ℕ}

theorem assembleEx_near (h : isNearJump arch (normalize arch code) = true) :
    assembleEx cs enc address arch ks code =
      (nearJump arch address ((normalize arch code).drop 9)).map fun bytes => (bytes, 1) := by
  rw [assembleEx, if_pos h]

theorem nearExact : NearExact cs enc address arch ks code := by
  intro hnear
  have hland : ∀ result n, assembleEx cs enc address arch ks code = .ok (result, n) →
      ∃ target disp, number ((normalize arch code).drop 9) = some target ∧ result = 0xe9 :: disp ∧
        disp.length = 4 ∧
        landing (space (arch == .x86_32)) (address.toNat + 5) (signed disp) = target.toNat := by
    intro result n h
    rw [assembleEx_near hnear] at h
    cases hjump : nearJump arch address ((normalize arch code).drop 9) with
    | error e =>
      rw [hjump] at h
      cases h
    | ok bytes =>
      rw [hjump] at h
      obtain rfl : bytes = result := congrArg Prod.fst (Except.ok.inj h)
      exact landing_near hjump
  refine ⟨fun result n h => ?_, fun target htarget hfar => ?_⟩
  · obtain ⟨target, disp, htarget, rfl, hlen, hlands⟩ := hland result n h
    refine ⟨by rw [List.length_cons, hlen], rfl, target, htarget, ?_⟩
    rw [directBranch_near (by decide) hlen, hlands]
  · cases h : assembleEx cs enc address arch ks code with
    | error e => exact ⟨e, rfl⟩
    | ok r =>
      obtain ⟨target', disp, htarget', -, hlen, hlands⟩ := hland r.1 r.2 h
      have hbounds := signed_bounds disp
      rw [hlen, show (256 : ℤ) ^ 4 = 2 ^ 32 by norm_num] at hbounds
      rw [htarget, Option.some.injEq] at htarget'
      rw [← htarget'] at hlands
      exact absurd hlands (hfar _ (by omega) (by omega))

theorem verified_ok {text bytes : Bytes} {count : ℕ}
    (h : verified address arch text bytes count = .ok (result, n)) :
    bytes = result ∧ count = n ∧ (arch.isX86 = true → n = 1 → result ≠ [] →
      verifyBranch address arch text result = .ok ()) := by
  rw [verified] at h
  split at h
  · cases hverify : verifyBranch address arch text bytes with
    | error e =>
      rw [hverify] at h
      cases h
    | ok u =>
      rw [hverify] at h
      cases h
      exact ⟨rfl, rfl, fun _ _ _ => hverify⟩
  · rename_i hskip
    cases h
    refine ⟨rfl, rfl, fun harch hcount hne => absurd ?_ hskip⟩
    rw [harch, hcount]
    simpa using hne

theorem assembleEx_ok (hnear : isNearJump arch (normalize arch code) = false)
    (h : assembleEx cs enc address arch ks code = .ok (result, n)) :
    ∃ text targets encoded, memoryTargets arch (normalize arch code) = .ok (text, targets) ∧
      ks text address = .ok (encoded, n) ∧ fixed cs enc address encoded targets = .ok result ∧
      (arch.isX86 = true → n = 1 → result ≠ [] →
        verifyBranch address arch text result = .ok ()) := by
  rw [assembleEx, if_neg (by rw [hnear]; decide)] at h
  cases htargets : memoryTargets arch (normalize arch code) with
  | error e =>
    rw [htargets] at h
    cases h
  | ok scanned =>
    obtain ⟨text, targets⟩ := scanned
    rw [htargets] at h
    cases hks : ks text address with
    | error e =>
      simp only [hks, Except.mapError, bind, Except.bind] at h
      cases h
    | ok made =>
      obtain ⟨encoded, count⟩ := made
      simp only [hks, Except.mapError, bind, Except.bind] at h
      split at h
      · cases h
      cases hfixed : fixed cs enc address encoded targets with
      | error e =>
        rw [hfixed] at h
        cases h
      | ok bytes =>
        rw [hfixed] at h
        obtain ⟨rfl, rfl, hverify⟩ := verified_ok h
        exact ⟨text, targets, encoded, rfl, hks, hfixed, hverify⟩

theorem no_bracket {target : UInt64} {text : Bytes} (h : branchDestination text = some target) :
    0x5b ∉ text := by
  intro hmem
  rw [branchDestination, if_pos (List.contains_iff_mem.2 hmem)] at h
  cases h

theorem branchLands_iff {text encoded : Bytes} {targets : List (Option UInt64)}
    (harch : arch.isX86 = true)
    (htargets : memoryTargets arch (normalize arch code) = .ok (text, targets))
    (hresult : fixed cs enc address encoded targets = .ok result)
    (hverify : arch.isX86 = true → n = 1 → result ≠ [] →
      verifyBranch address arch text result = .ok ()) :
    BranchLands address arch code result ↔ BranchSafe address arch code encoded n := by
  -- a branch to a number has no memory operand: what Keystone made stays
  have hsame : ∀ target, branchDestination (normalize arch code) = some target →
      text = normalize arch code ∧ result = encoded := by
    intro target hdest
    obtain ⟨targets', hplain, hnone⟩ := @memoryTargets_plain arch _ (no_bracket hdest)
    rw [hplain, Except.ok.injEq, Prod.mk.injEq] at htargets
    obtain ⟨rfl, rfl⟩ := htargets
    rw [fixed, hnone] at hresult
    exact ⟨rfl, (Except.ok.inj hresult).symm⟩
  constructor
  · intro hlands target landed hdest hbranch _
    obtain ⟨-, rfl⟩ := hsame target hdest
    exact hlands target landed hdest hbranch
  · intro hsafe target landed hdest hbranch
    obtain ⟨rfl, rfl⟩ := hsame target hdest
    by_cases hchecked : BranchChecked arch code result n target
    · obtain ⟨hcount, hencoded, mnemonic, rest, hsplit, hmnemonic, hnumber⟩ := hchecked
      obtain ⟨rel, hrel⟩ := Option.isSome_iff_exists.1 hencoded
      have hne : result ≠ [] := by
        rintro rfl
        cases hrel
      rw [directBranch_of_encodedBranch hrel, Option.some.injEq] at hbranch
      rw [← hbranch]
      exact landing_of_verifyBranch hsplit hmnemonic hnumber hrel (hverify harch hcount hne)
    · exact hsafe target landed hdest hbranch hchecked

theorem memoryReaches_iff (hcs : Faithful cs enc) {text encoded : Bytes}
    {targets : List (Option UInt64)}
    (htargets : memoryTargets arch (normalize arch code) = .ok (text, targets))
    (hresult : fixed cs enc address encoded targets = .ok result) :
    MemoryReaches cs enc address arch code result ↔
      MemorySafe cs enc address arch code encoded := by
  have hreached : Reached enc targets
      (Disassembler.disassemble cs .x86_64 address encoded 0 false)
      (Disassembler.disassemble cs .x86_64 address result 0 false) := by
    rw [fixed] at hresult
    split at hresult
    · exact fixBlock_spec hcs hresult
    · rename_i hnone
      intro i target hi
      exact absurd (List.any_eq_true.2 ⟨_, List.mem_of_getElem? hi, rfl⟩) hnone
  constructor
  · intro h text' targets' htargets' i target hi insn hinsn
    rw [htargets, Except.ok.injEq, Prod.mk.injEq] at htargets'
    obtain ⟨rfl, rfl⟩ := htargets'
    obtain ⟨insn₁, insn', h₁, h', hiff⟩ := hreached i target hi
    obtain ⟨insn₂, h₂, haddressed⟩ := h _ _ htargets i target hi
    rw [h', Option.some.injEq] at h₂
    rw [hinsn, Option.some.injEq] at h₁
    rw [h₁]
    exact hiff.1 (h₂ ▸ haddressed)
  · intro h text' targets' htargets' i target hi
    rw [htargets, Except.ok.injEq, Prod.mk.injEq] at htargets'
    obtain ⟨rfl, rfl⟩ := htargets'
    obtain ⟨insn₁, insn', h₁, h', hiff⟩ := hreached i target hi
    exact ⟨insn', h', hiff.2 (h _ _ htargets i target hi insn₁ h₁)⟩

/-- `jmp near` is exact, and every assembly leads where it was written to lead exactly where
Keystone makes no branch of another encoding with another displacement, and no operand with
registers. -/
theorem assembled_iff (hcs : Faithful cs enc) (harch : arch.isX86 = true) :
    NearExact cs enc address arch ks code ∧
      ∀ result n, assembleEx cs enc address arch ks code = .ok (result, n) →
        (Reaches cs enc address arch code result ↔ KeystoneSafe cs enc address arch ks code) := by
  refine ⟨nearExact, fun result n h => ?_⟩
  cases hnear : isNearJump arch (normalize arch code) with
  | true =>
    constructor
    · intro _ hnot
      rw [hnear] at hnot
      cases hnot
    · intro _ hnot
      rw [hnear] at hnot
      cases hnot
  | false =>
    obtain ⟨text, targets, encoded, htargets, hks, hresult, hverify⟩ := assembleEx_ok hnear h
    have hbranch := branchLands_iff harch htargets hresult hverify
    have hmemory := memoryReaches_iff hcs htargets hresult
    constructor
    · intro hreaches _ text' targets' encoded' count htargets' hks'
      rw [htargets, Except.ok.injEq, Prod.mk.injEq] at htargets'
      obtain ⟨rfl, rfl⟩ := htargets'
      rw [hks, Except.ok.injEq, Prod.mk.injEq] at hks'
      obtain ⟨rfl, rfl⟩ := hks'
      exact ⟨hbranch.1 (hreaches hnear).1, hmemory.1 (hreaches hnear).2⟩
    · intro hsafe _
      obtain ⟨hb, hm⟩ := hsafe hnear text targets encoded n htargets hks
      exact ⟨hbranch.2 hb, hmemory.2 hm⟩

end Assembled

/-! ### Two instructions -/

/-- `mov rax,[rip+d]` and `jrcxz`, of at most seven bytes. -/
def decodeFew (a : UInt64) : Bytes → Option Instruction
  | 0x48 :: 0x8b :: 0x05 :: d₀ :: d₁ :: d₂ :: d₃ :: _ =>
    let disp := signed [d₀, d₁, d₂, d₃]
    some
      { address := a
        bytes := [0x48, 0x8b, 0x05, d₀, d₁, d₂, d₃]
        mnemonic := lit "mov"
        operands := lit "rax, qword ptr [" ++ CtFile.hexText (a + 7 + UInt64.ofInt disp) ++ lit "]"
        size := 7
        ripTarget := a + 7 + UInt64.ofInt disp
        memory := { present := true, ripRelative := true, disp } }
  | 0xe3 :: d :: _ =>
    some
      { address := a
        bytes := [0xe3, d]
        mnemonic := lit "jrcxz"
        operands := CtFile.hexText (a + 2 + UInt64.ofInt (signed [d]))
        size := 2 }
  | _ => none

def fewEncodings (insn : Instruction) : Encoding :=
  if insn.size = 7 then { dispOffset := 3, dispSize := 4, segmentReg := [] }
  else { dispOffset := 0, dispSize := 0, segmentReg := [] }

theorem decodeFew_some {a : UInt64} {code : Bytes} {insn : Instruction}
    (h : decodeFew a (code.take 7) = some insn) :
    (∃ d₀ d₁ d₂ d₃ rest, code = [0x48, 0x8b, 0x05, d₀, d₁, d₂, d₃] ++ rest ∧ insn.size = 7) ∨
      ∃ d rest, code = [0xe3, d] ++ rest ∧ insn.size = 2 := by
  have hcode := List.take_append_drop 7 code
  rw [decodeFew.eq_def] at h
  split at h
  · rename_i d₀ d₁ d₂ d₃ rest heq
    cases h
    exact .inl ⟨d₀, d₁, d₂, d₃, rest ++ code.drop 7, hcode.symm.trans (by rw [heq]; rfl), rfl⟩
  · rename_i d rest heq
    cases h
    exact .inr ⟨d, rest ++ code.drop 7, hcode.symm.trans (by rw [heq]; rfl), rfl⟩
  · cases h

def fewCodes : Capstone where
  one a code := decodeFew a (code.take 7)
  one_take := by
    intro a code
    rw [List.take_take]
    rfl
  one_some := by
    intro a code insn h
    have haddress : insn.address = a := by
      rw [decodeFew.eq_def] at h
      split at h <;> cases h <;> rfl
    rcases decodeFew_some h with ⟨d₀, d₁, d₂, d₃, rest, rfl, hsize⟩ | ⟨d, rest, rfl, hsize⟩
    · exact ⟨haddress, by omega, by rw [hsize, List.length_append]; exact Nat.le_add_right 7 _⟩
    · exact ⟨haddress, by omega, by rw [hsize, List.length_append]; exact Nat.le_add_right 2 _⟩

theorem faithful_fewCodes : Faithful fewCodes fewEncodings where
  bytes := by
    intro a code insn h
    rcases decodeFew_some h with ⟨d₀, d₁, d₂, d₃, rest, rfl, -⟩ | ⟨d, rest, rfl, -⟩ <;>
      cases h <;> rfl
  own := by
    intro a code insn more h
    rcases decodeFew_some h with ⟨d₀, d₁, d₂, d₃, rest, rfl, -⟩ | ⟨d, rest, rfl, -⟩ <;>
      cases h <;> rfl
  displacement := by
    intro a code insn bits h hrip _ _
    rcases decodeFew_some h with ⟨d₀, d₁, d₂, d₃, rest, rfl, -⟩ | ⟨d, rest, rfl, -⟩
    · cases h
      exact ⟨_, rfl, rfl, rfl, rfl, rfl, rfl⟩
    · cases h
      cases hrip

/-- A jump as Keystone encodes it, and an operand whose displacement is filled in. -/
theorem jump_movRel_reach :
    Reaches fewCodes fewEncodings 0x1000 .x86_64 (lit "jmp 0x2000")
        [0xe9, 0xfb, 0x0f, 0x00, 0x00] ∧
      Reaches fewCodes fewEncodings 0x1000 .x86_64 (lit "mov rax,[rel 0x2000]")
        [0x48, 0x8b, 0x05, 0xf9, 0x0f, 0x00, 0x00] := by
  constructor
  · refine ((@assembled_iff fewCodes fewEncodings 0x1000 .x86_64
      (fun _ _ => .ok ([0xe9, 0xfb, 0x0f, 0x00, 0x00], 1)) (lit "jmp 0x2000")
      faithful_fewCodes rfl).2 _ 1 (by decide +kernel)).2 ?_
    intro _ text targets encoded count htargets hks
    cases hks
    refine ⟨fun target landed hdest hland _ => ?_,
      fun text' targets' htargets' i target htarget insn hinsn => ?_⟩
    · have hjump : branchDestination (normalize .x86_64 (lit "jmp 0x2000")) = some 0x2000 := by
        decide +kernel
      have hlands : directBranch false 0x1000 [0xe9, 0xfb, 0x0f, 0x00, 0x00] = some 0x2000 := by
        decide +kernel
      cases hjump.symm.trans hdest
      cases hlands.symm.trans hland
      rfl
    · have hnone : memoryTargets .x86_64 (normalize .x86_64 (lit "jmp 0x2000")) =
          .ok (lit "jmp 0x2000", [none]) := by decide +kernel
      cases hnone.symm.trans htargets'
      rcases i with _ | i
      · cases htarget
      · cases htarget
  · refine ((@assembled_iff fewCodes fewEncodings 0x1000 .x86_64
      (fun _ _ => .ok ([0x48, 0x8b, 0x05, 0x00, 0x00, 0x00, 0x00], 1))
      (lit "mov rax,[rel 0x2000]") faithful_fewCodes rfl).2 _ 1 (by decide +kernel)).2 ?_
    intro _ text targets encoded count htargets hks
    cases hks
    refine ⟨fun target landed hdest => ?_,
      fun text' targets' htargets' i target _ insn hinsn => ?_⟩
    · cases hdest
    · rcases i with _ | i
      · cases hinsn
        exact ⟨rfl, fun h => by cases h⟩
      · cases hinsn

/-- `jrcxz` with a displacement of one byte that does not reach its destination. -/
theorem not_assembled_reaches :
    ¬∀ (cs : Capstone) (enc : Instruction → Encoding) (address : UInt64) (arch : AsmArch)
      (ks : Keystone) (code : Bytes), Faithful cs enc → arch.isX86 = true →
      NearExact cs enc address arch ks code ∧
        ∀ result n, assembleEx cs enc address arch ks code = .ok (result, n) →
          Reaches cs enc address arch code result := by
  intro h
  have hreaches := (h fewCodes fewEncodings 0x1000 .x86_64 (fun _ _ => .ok ([0xe3, 0xfe], 1))
    (lit "jrcxz 0x2000") faithful_fewCodes rfl).2 [0xe3, 0xfe] 1 (by decide +kernel)
  have hland := (hreaches (by decide +kernel)).1 0x2000 0x1000 (by decide +kernel)
    (by decide +kernel)
  revert hland
  decide

end CheatEngine.Assembler
