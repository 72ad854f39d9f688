import CheatEngineLinux.Core.CheatTable
import CheatEngineLinux.Library.ChunkedDecode

/-!
# Disassembling a range of bytes

`Disassembler::disassemble` (`src/arch/disassembler.cpp`) decodes until Capstone fails, and steps
over what it cannot decode as data.

* `Capstone`: what one instruction is, from the bytes at its address.
* `disassemble`: the loop over the runs of instructions and the data between them.
* `linear`: one instruction or data after the other.

* **PROVED `disassemble_eq`**: the loop gives one item after the other.
-/

namespace CheatEngine.Disassembler

open ChunkedDecode
open JsonGrammar (Bytes)

inductive Arch
  | x86_32 | x86_64 | arm32 | arm64 | armThumb | arm32BE | armThumbBE | riscv32 | riscv64
  | ppc64 | ppc64BE | s390x | mips64 | mips64BE
  deriving Repr, DecidableEq

/-- `MemoryOperand`: its parts that make an absolute address. -/
structure MemoryOperand where
  present : Bool := false
  ripRelative : Bool := false
  baseReg : Bytes := []
  indexReg : Bytes := []
  disp : ℤ := 0
  deriving Repr, DecidableEq

structure Instruction where
  address : UInt64
  bytes : Bytes
  mnemonic : Bytes
  operands : Bytes := []
  size : ℕ
  ripTarget : UInt64 := 0
  memory : MemoryOperand := {}
  deriving Repr, DecidableEq

/-- `cs_disasm` for one instruction, and `buildInstruction`: it sees at most fifteen bytes, and
takes at least one. -/
structure Capstone where
  one : UInt64 → Bytes → Option Instruction
  one_take : ∀ address code, one address (code.take 15) = one address code
  one_some : ∀ address code insn, one address code = some insn →
    insn.address = address ∧ 0 < insn.size ∧ insn.size ≤ code.length

/-- `cs_disasm`: up to so many instructions, or all of them. -/
def csDisasm (cs : Capstone) : ℕ → UInt64 → Bytes → ℕ → List Instruction
  | 0, _, _, _ => []
  | turns + 1, address, code, want =>
    match cs.one address code with
    | none => []
    | some insn =>
      insn :: if want = 1 then []
        else csDisasm cs turns (address + UInt64.ofNat insn.size) (code.drop insn.size) (want - 1)

/-- `unit`, of the bytes that are left. -/
def dataUnit (arch : Arch) (code : Bytes) : ℕ :=
  let first := code.headD 0
  match arch with
  | .x86_32 | .x86_64 => 1
  | .arm32 | .arm32BE | .arm64 => 4
  | .riscv32 | .riscv64 => if first &&& 3 = 3 then 4 else 2
  | .ppc64 | .ppc64BE | .mips64 | .mips64BE => 4
  | .s390x => if first >>> 6 = 0 then 2 else if first >>> 6 = 3 then 6 else 4
  | .armThumb =>
    if code.length ≥ 2 ∧ (code.getD 1 0).toNat * 256 + first.toNat ≥ 0xe800 then 4 else 2
  | .armThumbBE =>
    if code.length ≥ 2 ∧ first.toNat * 256 + (code.getD 1 0).toNat ≥ 0xe800 then 4 else 2

/-- `0x%02x` -/
def hexByte (b : UInt8) : Bytes :=
  CtFile.lit "0x" ++ [Json.hexDigit (b >>> 4), Json.hexDigit (b &&& 15)]

def dataBytes (arch : Arch) (address : UInt64) (code : Bytes) : Instruction :=
  let unit := min (dataUnit arch code) code.length
  { address
    bytes := code.take unit
    mnemonic := CtFile.lit "db"
    operands := (CtFile.lit ", ").intercalate ((code.take unit).map hexByte)
    size := unit }

/-- `(result.back().address - address) + result.back().size` -/
def endOf (address : UInt64) (insns : List Instruction) (offset : ℕ) : ℕ :=
  match insns.getLast? with
  | none => offset
  | some last => (last.address - address).toNat + last.size

/-- The loop of `disassemble`; every turn moves on by at least a byte. -/
def disassembleLoop (cs : Capstone) (arch : Arch) (address : UInt64) (code : Bytes) (count : ℕ)
    (emitDataBytes : Bool) : ℕ → ℕ → List Instruction → List Instruction
  | 0, _, result => result
  | turns + 1, offset, result =>
    if offset < code.length then
      if count ≠ 0 ∧ result.length ≥ count then result
      else
        let want := if count = 0 then 0 else count - result.length
        let insns := csDisasm cs (code.length - offset) (address + UInt64.ofNat offset)
          (code.drop offset) want
        let result := result ++ insns
        let offset := endOf address insns offset
        if !emitDataBytes then result
        else if count ≠ 0 ∧ result.length ≥ count then result
        else if offset ≥ code.length then result
        else
          let dbi := dataBytes arch (address + UInt64.ofNat offset) (code.drop offset)
          disassembleLoop cs arch address code count emitDataBytes turns (offset + dbi.size)
            (result ++ [dbi])
    else result

def disassemble (cs : Capstone) (arch : Arch) (address : UInt64) (code : Bytes) (count : ℕ)
    (emitDataBytes : Bool) : List Instruction :=
  disassembleLoop cs arch address code count emitDataBytes code.length 0 []

/-! ### One item after the other -/

section Linear

variable {cs : Capstone} {arch : Arch} {base : UInt64}

/-- An instruction, or data where there is none. -/
def item (cs : Capstone) (arch : Arch) (base : UInt64) (p : ℕ) (code : Bytes) : Instruction :=
  (cs.one (base + UInt64.ofNat p) code).getD (dataBytes arch (base + UInt64.ofNat p) code)

theorem dataUnit_bounds (arch : Arch) (code : Bytes) :
    0 < dataUnit arch code ∧ dataUnit arch code ≤ 6 := by
  unfold dataUnit
  cases arch
  case riscv32 | riscv64 | s390x | armThumb | armThumbBE =>
    dsimp only
    split_ifs <;> decide
  all_goals exact ⟨Nat.succ_pos _, by dsimp only; omega⟩

theorem dataUnit_take (arch : Arch) (code : Bytes) :
    dataUnit arch (code.take 15) = dataUnit arch code := by
  rcases code with _ | ⟨b, _ | ⟨b', rest⟩⟩
  · rfl
  · rfl
  · have hlen : ∀ xs : Bytes, 2 ≤ xs.length + 1 + 1 := fun xs => by omega
    simp [dataUnit, hlen]

theorem dataBytes_take (arch : Arch) (address : UInt64) (code : Bytes) :
    dataBytes arch address (code.take 15) = dataBytes arch address code := by
  have hsix := (dataUnit_bounds arch code).2
  have hunit : min (dataUnit arch code) (code.take 15).length =
      min (dataUnit arch code) code.length := by
    rw [List.length_take]
    omega
  have htake : (code.take 15).take (min (dataUnit arch code) code.length) =
      code.take (min (dataUnit arch code) code.length) := by
    rw [List.take_take, Nat.min_eq_left (by omega)]
  simp only [dataBytes, dataUnit_take, hunit, htake]

theorem size_item_le (p : ℕ) (code : Bytes) : (item cs arch base p code).size ≤ code.length := by
  unfold item
  cases h : cs.one (base + UInt64.ofNat p) code with
  | none => exact Nat.min_le_right _ _
  | some insn => exact (cs.one_some _ _ _ h).2.2

theorem size_item_pos {p : ℕ} {code : Bytes} (hcode : code ≠ []) :
    0 < (item cs arch base p code).size := by
  unfold item
  cases h : cs.one (base + UInt64.ofNat p) code with
  | none =>
    have hpos := (dataUnit_bounds arch code).1
    have hlen := List.length_pos_iff.2 hcode
    exact Nat.lt_min.2 ⟨hpos, hlen⟩
  | some insn => exact (cs.one_some _ _ _ h).2.1

theorem address_item (p : ℕ) (code : Bytes) :
    (item cs arch base p code).address = base + UInt64.ofNat p := by
  unfold item
  cases h : cs.one (base + UInt64.ofNat p) code with
  | none => rfl
  | some insn => exact (cs.one_some _ _ _ h).1

/-- Items are decoded from fifteen bytes. -/
def decoder (cs : Capstone) (arch : Arch) (base : UInt64) : Decoder UInt8 Instruction where
  window := 15
  step p code := (item cs arch base p code, (item cs arch base p code).size)
  step_pos _ _ h := size_item_pos h
  step_le := size_item_le
  step_take p code := by
    have h : item cs arch base p (code.take 15) = item cs arch base p code := by
      rw [item, item, cs.one_take, dataBytes_take]
    rw [h]

/-- The instructions and data of a range, one after the other. -/
def linear (cs : Capstone) (arch : Arch) (base : UInt64) (code : Bytes) : List Instruction :=
  (decode (decoder cs arch base) 0 code).map Prod.snd

/-! ### The loop -/

theorem one_nil (address : UInt64) : cs.one address [] = none := by
  cases h : cs.one address [] with
  | none => rfl
  | some insn =>
    obtain ⟨-, hpos, hle⟩ := cs.one_some _ _ _ h
    rw [List.length_nil] at hle
    omega

theorem endOf_cons_cons (address : UInt64) (insn insn' : Instruction) (insns : List Instruction)
    (offset offset' : ℕ) :
    endOf address (insn :: insn' :: insns) offset = endOf address (insn' :: insns) offset' := by
  rw [endOf, endOf, List.getLast?_cons_cons, List.getLast?_cons]

theorem csDisasm_eq {turns offset : ℕ} {code : Bytes} (hturns : code.length ≤ turns)
    (hfits : offset + code.length < 2 ^ 64) :
    ∃ n ≤ code.length,
      (decode (decoder cs arch base) offset code).map Prod.snd =
        csDisasm cs turns (base + UInt64.ofNat offset) code 0 ++
          (decode (decoder cs arch base) (offset + n) (code.drop n)).map Prod.snd ∧
      cs.one (base + UInt64.ofNat (offset + n)) (code.drop n) = none ∧
      endOf base (csDisasm cs turns (base + UInt64.ofNat offset) code 0) offset = offset + n := by
  induction turns generalizing offset code with
  | zero =>
    obtain rfl : code = [] := List.length_eq_zero_iff.1 (by omega)
    exact ⟨0, Nat.le_refl _, by simp [csDisasm], one_nil _, rfl⟩
  | succ turns ih =>
    rw [csDisasm]
    cases hone : cs.one (base + UInt64.ofNat offset) code with
    | none => exact ⟨0, Nat.zero_le _, by simp, by simpa using hone, rfl⟩
    | some insn =>
      obtain ⟨haddress, hpos, hle⟩ := cs.one_some _ _ _ hone
      have hcode : code ≠ [] := by
        rintro rfl
        rw [List.length_nil] at hle
        omega
      have hlen : (code.drop insn.size).length = code.length - insn.size := List.length_drop
      obtain ⟨n, hn, hdecode, hnone, hend⟩ := @ih (offset + insn.size) (code.drop insn.size)
        (by omega) (by omega)
      have hnext : base + UInt64.ofNat offset + UInt64.ofNat insn.size =
          base + UInt64.ofNat (offset + insn.size) := by
        rw [UInt64.ofNat_add, UInt64.add_assoc]
      have hitem : item cs arch base offset code = insn := by
        rw [item, hone, Option.getD_some]
      refine ⟨insn.size + n, by omega, ?_, ?_, ?_⟩
      · rw [decode_cons hcode, List.map_cons]
        dsimp only [decoder]
        rw [hitem, hnext, ← Nat.add_assoc, ← List.drop_drop]
        exact congrArg (List.cons insn) hdecode
      · rw [← Nat.add_assoc, ← List.drop_drop]
        exact hnone
      · rw [← Nat.add_assoc, ← hend]
        dsimp only
        rw [if_neg (by decide), Nat.zero_sub, hnext]
        cases htail : csDisasm cs turns (base + UInt64.ofNat (offset + insn.size))
            (code.drop insn.size) 0 with
        | cons insn' insns => exact endOf_cons_cons ..
        | nil =>
          change (insn.address - base).toNat + insn.size = offset + insn.size
          rw [haddress, UInt64.add_comm, UInt64.add_sub_cancel,
            UInt64.toNat_ofNat_of_lt' (by rw [UInt64.size]; omega)]

theorem disassembleLoop_eq {code : Bytes} (hfits : code.length < 2 ^ 64) {turns offset : ℕ}
    (hoffset : offset ≤ code.length) (hturns : code.length - offset ≤ turns)
    (result : List Instruction) :
    disassembleLoop cs arch base code 0 true turns offset result =
      result ++ (decode (decoder cs arch base) offset (code.drop offset)).map Prod.snd := by
  induction turns generalizing offset result with
  | zero =>
    rw [disassembleLoop, List.drop_eq_nil_of_le (by omega)]
    simp
  | succ turns ih =>
    rw [disassembleLoop]
    by_cases hlt : offset < code.length
    · have hlen : (code.drop offset).length = code.length - offset := List.length_drop
      obtain ⟨n, hn, hdecode, hnone, hend⟩ := @csDisasm_eq cs arch base (code.length - offset)
        offset (code.drop offset) (by omega) (by omega)
      rw [if_pos hlt, if_neg (by simp)]
      simp only [if_true, Bool.not_true, Bool.false_eq_true, if_false, ne_eq, not_true_eq_false,
        false_and, hend]
      rw [hdecode, ← List.append_assoc]
      rw [List.drop_drop] at hnone ⊢
      by_cases hdone : offset + n ≥ code.length
      · rw [if_pos hdone, List.drop_eq_nil_of_le hdone]
        simp
      · have hne : code.drop (offset + n) ≠ [] := by
          rw [Ne, List.drop_eq_nil_iff]
          exact hdone
        have hitem : item cs arch base (offset + n) (code.drop (offset + n)) =
            dataBytes arch (base + UInt64.ofNat (offset + n)) (code.drop (offset + n)) := by
          rw [item, hnone, Option.getD_none]
        have hpos := @size_item_pos cs arch base (offset + n) _ hne
        have hle := @size_item_le cs arch base (offset + n) (code.drop (offset + n))
        rw [List.length_drop] at hle
        rw [if_neg hdone, ← hitem, ih (by omega) (by omega), decode_cons hne, List.map_cons,
          List.append_assoc, List.singleton_append]
        dsimp only [decoder]
        rw [List.drop_drop]
    · rw [if_neg hlt, List.drop_eq_nil_of_le (Nat.le_of_not_lt hlt)]
      simp

theorem disassemble_eq {code : Bytes} (hfits : code.length < 2 ^ 64) :
    disassemble cs arch base code 0 true = linear cs arch base code := by
  rw [disassemble, disassembleLoop_eq hfits (Nat.zero_le _) (Nat.sub_le _ _), linear]
  rfl

theorem decode_part (offset : ℕ) (code : Bytes) :
    linear cs arch (base + UInt64.ofNat offset) code =
      (decode (decoder cs arch base) offset code).map Prod.snd := by
  have hshift := @decode_shift _ _ (decoder cs arch base)
    (decoder cs arch (base + UInt64.ofNat offset)) offset (fun p xs => ?_) 0 code
  · rw [Nat.add_zero] at hshift
    rw [hshift, linear, List.map_map]
    rfl
  · have haddress : base + UInt64.ofNat offset + UInt64.ofNat p =
        base + UInt64.ofNat (offset + p) := by
      rw [UInt64.ofNat_add, UInt64.add_assoc]
    simp only [decoder, item, haddress]

end Linear

end CheatEngine.Disassembler
