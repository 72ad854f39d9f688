import CheatEngineLinux.Arch.Disassembler

/-!
# Dissecting a module in chunks

`CodeAnalyzer::dissectModule` (`src/analysis/code_analysis.cpp`) decodes the executable regions of a
module a chunk at a time, the last bytes of a chunk again with the next one.

* `refOf`: the reference of an instruction, if it has one.
* `visit`, `chunkLoop`: the instructions of a chunk, and the chunks of a region.
* `dissectModule`: the regions of a module.
* `CutsWell`: what is decoded at the top of the address space, where the end of a chunk is missed.

* **PROVED `chunkLoop_iff`**: the chunks give what is decoded at once if and only if they cut well.
* **PROVED `dissectModule_linear_iff`**: so the references are those of one pass over each region
  if and only if every region is cut well.
-/

namespace CheatEngine.CodeAnalysis

open ChunkedDecode Disassembler
open CtFile (fromCharsAll lit trimSpace)
open JsonGrammar (Bytes)

/-! ### References -/

inductive RefType
  | call | jump | string | function | ripRelative | assemblyPattern
  deriving Repr, DecidableEq

structure CodeRef where
  address : UInt64
  target : UInt64
  type : RefType
  text : Bytes
  deriving Repr, DecidableEq

structure ModuleInfo where
  base : UInt64
  size : UInt64
  deriving Repr, DecidableEq

/-- The magnitude of an integer: hexadecimal behind `0x`. -/
def parseMagnitude (text : Bytes) : Option ℕ :=
  if text.length > 2 ∧ text.head? = some 0x30 ∧ (text.getD 1 0 = 0x78 ∨ text.getD 1 0 = 0x58) then
    fromCharsAll 16 (text.drop 2)
  else fromCharsAll 10 text

/-- `parseInteger`: an `int64_t`. -/
def parseInteger (text : Bytes) : Option (BitVec 64) :=
  match trimSpace text with
  | [] => none
  | sign :: rest =>
    if sign = 0x2b ∨ sign = 0x2d then
      (parseMagnitude (rest.dropWhile CtFile.isSpace)).map fun value =>
        if sign = 0x2d then -BitVec.ofNat 64 value else BitVec.ofNat 64 value
    else (parseMagnitude (sign :: rest)).map (BitVec.ofNat 64)

/-- `operands.substr(comma + 1)` -/
def lastOperand (operands : Bytes) : Bytes :=
  (operands.reverse.takeWhile fun b => b ≠ 0x2c).reverse

def parseDirectTarget (operands : Bytes) : Option UInt64 :=
  let target := lastOperand operands
  if 0x5b ∈ target then none
  else
    match parseInteger target with
    | none => none
    | some value => if value.msb then none else some (UInt64.ofBitVec value)

def dataTarget (arch : Arch) (mod : ModuleInfo) (inst : Instruction) : Option UInt64 :=
  if inst.ripTarget ≠ 0 then some inst.ripTarget
  else
    let m := inst.memory
    if !m.present || m.ripRelative || !m.baseReg.isEmpty || !m.indexReg.isEmpty then none
    else
      let target : UInt64 :=
        if arch = .x86_32 then UInt64.ofNat (m.disp % 2 ^ 32).toNat
        else if m.disp > 0 then UInt64.ofNat m.disp.toNat
        else 0
      if target = 0 then none
      else if target < mod.base ∨ target - mod.base ≥ mod.size then none
      else some target

/-- `inst.mnemonic + " " + inst.operands` -/
def refText (inst : Instruction) : Bytes := inst.mnemonic ++ lit " " ++ inst.operands

/-- A transfer of control: its target, or the slot that holds its target. -/
def transferRef (arch : Arch) (mod : ModuleInfo) (type : RefType) (inst : Instruction) :
    Option CodeRef :=
  let direct := (parseDirectTarget inst.operands).getD 0
  if direct ≠ 0 then some ⟨inst.address, direct, type, refText inst⟩
  else (dataTarget arch mod inst).map fun target =>
    ⟨inst.address, target, .ripRelative, refText inst⟩

/-- What the loop over the instructions adds to `refs`. -/
def refOf (arch : Arch) (mod : ModuleInfo) (inst : Instruction) : Option CodeRef :=
  if inst.mnemonic = lit "call" then transferRef arch mod .call inst
  else if inst.mnemonic = lit "jmp" ∨ inst.mnemonic.head? = some 0x6a then
    transferRef arch mod .jump inst
  else (dataTarget arch mod inst).map fun target =>
    ⟨inst.address, target, .ripRelative, refText inst⟩

/-! ### Chunks -/

/-- The instructions visited and the references found so far. -/
structure Dissection where
  visited : List Instruction := []
  refs : List CodeRef := []
  deriving DecidableEq

def Dissection.add (arch : Arch) (mod : ModuleInfo) (found : Dissection) (inst : Instruction) :
    Dissection :=
  ⟨found.visited ++ [inst], found.refs ++ (refOf arch mod inst).toList⟩

def kChunk : ℕ := 2 ^ 20

def kMaxInstruction : UInt64 := 16

def kMaxAnalysisRegion : ℕ := 512 * 1024 * 1024

/-- The loop over the instructions of a chunk, which ends at `limit`; where to go on. -/
def visit (arch : Arch) (mod : ModuleInfo) (lastChunk : Bool) (base limit : UInt64) :
    List Instruction → ℕ → Dissection → ℕ × Dissection
  | [], next, found => (next, found)
  | inst :: rest, next, found =>
    if !lastChunk && decide (inst.address + kMaxInstruction > limit) then
      ((inst.address - base).toNat, found)
    else visit arch mod lastChunk base limit rest next (found.add arch mod inst)

def chunkLoop (cs : Capstone) (arch : Arch) (mod : ModuleInfo) (base : UInt64) (buf : Bytes) :
    ℕ → ℕ → Dissection → Option Dissection
  | 0, _, _ => none
  | turns + 1, offset, found =>
    if offset < buf.length then
      let length := min kChunk (buf.length - offset)
      let lastChunk := decide (offset + length ≥ buf.length)
      let insns := disassemble cs arch (base + UInt64.ofNat offset) ((buf.drop offset).take length)
        0 true
      let (next, found) := visit arch mod lastChunk base
        (base + UInt64.ofNat offset + UInt64.ofNat length) insns (offset + length) found
      chunkLoop cs arch mod base buf turns (if next > offset then next else offset + length) found
    else some found

/-! ### Regions -/

structure MemoryRegion where
  base : UInt64
  size : UInt64
  exec : Bool

/-- `proc`: its regions, and what a read of so many bytes gives. -/
structure ProcessHandle where
  queryRegions : List MemoryRegion
  read : UInt64 → ℕ → Option Bytes

def ProcessHandle.readRegion (proc : ProcessHandle) (r : MemoryRegion) : Bytes :=
  let readLen := min r.size.toNat kMaxAnalysisRegion
  ((proc.read r.base readLen).getD []).take readLen

/-- Whether a region is dissected. -/
def inModule (mod : ModuleInfo) (r : MemoryRegion) : Bool :=
  !(decide (r.base < mod.base) || decide (r.base ≥ mod.base + mod.size)) && r.exec

def dissectRegions (cs : Capstone) (arch : Arch) (proc : ProcessHandle) (mod : ModuleInfo)
    (turns : ℕ) : List MemoryRegion → Dissection → Option Dissection
  | [], found => some found
  | r :: rest, found =>
    if inModule mod r then
      match chunkLoop cs arch mod r.base (proc.readRegion r) turns 0 found with
      | none => none
      | some found => dissectRegions cs arch proc mod turns rest found
    else dissectRegions cs arch proc mod turns rest found

def dissectModule (cs : Capstone) (arch : Arch) (turns : ℕ) (proc : ProcessHandle)
    (mod : ModuleInfo) : Option Dissection :=
  dissectRegions cs arch proc mod turns proc.queryRegions {}

/-! ### One pass over a region -/

section Linear

variable {cs : Capstone} {arch : Arch} {mod : ModuleInfo} {base : UInt64} {buf : Bytes}

def Dissection.addAll (arch : Arch) (mod : ModuleInfo) (found : Dissection)
    (insns : List Instruction) : Dissection :=
  ⟨found.visited ++ insns, found.refs ++ insns.filterMap (refOf arch mod)⟩

@[simp] theorem addAll_nil (found : Dissection) : found.addAll arch mod [] = found := by
  simp [Dissection.addAll]

theorem addAll_append (found : Dissection) (insns insns' : List Instruction) :
    (found.addAll arch mod insns).addAll arch mod insns' =
      found.addAll arch mod (insns ++ insns') := by
  simp [Dissection.addAll]

theorem addAll_cons (found : Dissection) (inst : Instruction) (insns : List Instruction) :
    (found.add arch mod inst).addAll arch mod insns = found.addAll arch mod (inst :: insns) := by
  cases h : refOf arch mod inst <;> simp [Dissection.add, Dissection.addAll, h]

theorem visit_last {limit : UInt64} (insns : List Instruction) (next : ℕ) (found : Dissection) :
    visit arch mod true base limit insns next found = (next, found.addAll arch mod insns) := by
  induction insns generalizing found with
  | nil => simp [visit]
  | cons inst rest ih =>
    rw [visit, if_neg (by simp), ih, addAll_cons]

theorem address_of_mem {p : ℕ} {code : Bytes} {entry : ℕ × Instruction}
    (h : entry ∈ decode (decoder cs arch base) p code) :
    entry.2.address = base + UInt64.ofNat entry.1 := by
  induction hn : code.length using Nat.strong_induction_on generalizing p code with
  | _ n ih =>
    by_cases hcode : code = []
    · simp [hcode] at h
    have hpos := (decoder cs arch base).step_pos p code hcode
    have hle := (decoder cs arch base).step_le p code
    rw [decode_cons hcode] at h
    rcases List.mem_cons.1 h with rfl | h
    · exact address_item p code
    · refine ih _ ?_ h rfl
      rw [List.length_drop]
      omega

theorem toNat_add_ofNat {n : ℕ} (h : base.toNat + n < 2 ^ 64) :
    (base + UInt64.ofNat n).toNat = base.toNat + n := by
  rw [UInt64.toNat_add, UInt64.toNat_ofNat_of_lt' (by rw [UInt64.size]; omega),
    Nat.mod_eq_of_lt h]

theorem addAll_inj {found : Dissection} {insns insns' : List Instruction} :
    found.addAll arch mod insns = found.addAll arch mod insns' ↔ insns = insns' := by
  refine ⟨fun h => ?_, congrArg _⟩
  exact List.append_cancel_left (congrArg Dissection.visited h)

theorem visit_whole {limit : UInt64} (insns : List Instruction) (next : ℕ) (found : Dissection)
    (h : ∀ inst ∈ insns, ¬inst.address + kMaxInstruction > limit) :
    visit arch mod false base limit insns next found = (next, found.addAll arch mod insns) := by
  induction insns generalizing found with
  | nil => simp [visit]
  | cons inst rest ih =>
    rw [visit, if_neg (by simpa using h inst List.mem_cons_self),
      ih _ fun inst' h' => h inst' (List.mem_cons_of_mem _ h'), addAll_cons]

theorem ahead_gt_iff {last : ℕ} (hlast : base.toNat + last < 2 ^ 64) {entry : ℕ × Instruction}
    (haddr : entry.2.address = base + UInt64.ofNat entry.1)
    (hahead : base.toNat + entry.1 + 16 < 2 ^ 64) :
    entry.2.address + kMaxInstruction > base + UInt64.ofNat last ↔
      ¬fits 16 last entry = true := by
  have h16 : kMaxInstruction = UInt64.ofNat 16 := rfl
  rw [haddr, h16, UInt64.add_assoc, ← UInt64.ofNat_add, gt_iff_lt, UInt64.lt_iff_toNat_lt,
    toNat_add_ofNat hlast, toNat_add_ofNat (by omega), fits, decide_eq_true_iff]
  omega

/-- The look ahead of the first item without a window left wraps around. -/
def wraps (base : UInt64) (last : ℕ) (items : List (ℕ × Instruction)) : Bool :=
  (items.dropWhile (fits 16 last)).head?.any
    fun item => decide (2 ^ 64 ≤ base.toNat + item.1 + 16)

theorem visit_items {last : ℕ} (hlast : base.toNat + last < 2 ^ 64)
    (entries : List (ℕ × Instruction))
    (haddress : ∀ entry ∈ entries, entry.2.address = base + UInt64.ofNat entry.1)
    (hstop : wraps base last entries = false) (found : Dissection) :
    visit arch mod false base (base + UInt64.ofNat last) (entries.map Prod.snd) last found =
      (resume 16 last entries,
        found.addAll arch mod ((entries.takeWhile (fits 16 last)).map Prod.snd)) := by
  induction entries generalizing found with
  | nil => simp [visit, resume]
  | cons entry rest ih =>
    have haddr := haddress entry List.mem_cons_self
    rw [List.map_cons, visit]
    by_cases hfit : fits 16 last entry = true
    · have hin : entry.1 + 16 ≤ last := of_decide_eq_true hfit
      rw [wraps, List.dropWhile_cons_of_pos hfit] at hstop
      rw [if_neg (by simp [ahead_gt_iff hlast haddr (by omega), hfit]),
        ih (fun e he => haddress e (List.mem_cons_of_mem _ he)) hstop, resume_cons_of_pos hfit,
        List.takeWhile_cons_of_pos hfit, List.map_cons, addAll_cons]
    · rw [wraps, List.dropWhile_cons_of_neg hfit, List.head?_cons, Option.any_some,
        decide_eq_false_iff_not] at hstop
      rw [if_pos (by simp [ahead_gt_iff hlast haddr (by omega), hfit]), resume_cons_of_neg hfit,
        List.takeWhile_cons_of_neg hfit, List.map_nil, addAll_nil, haddr, UInt64.add_comm,
        UInt64.add_sub_cancel, UInt64.toNat_ofNat_of_lt' (by rw [UInt64.size]; omega)]

/-- Where the look ahead wraps around at the end of a chunk, the bytes before the end and behind it
give apart what they give together. -/
def CutsWell (cs : Capstone) (arch : Arch) (base : UInt64) (buf : Bytes) : ℕ → ℕ → Prop
  | 0, _ => True
  | turns + 1, offset =>
    offset + kChunk < buf.length →
      let last := offset + kChunk
      let items := decode (decoder cs arch base) offset ((buf.drop offset).take kChunk)
      if wraps base last items then
        (items ++ decode (decoder cs arch base) last (buf.drop last)).map Prod.snd =
          (decode (decoder cs arch base) offset (buf.drop offset)).map Prod.snd
      else CutsWell cs arch base buf turns (resume 16 last items)

theorem chunkLoop_last {turns offset : ℕ} (hone : buf.length - offset ≤ kChunk)
    (hturns : buf.length - offset < turns) (found : Dissection) :
    chunkLoop cs arch mod base buf turns offset found = some (found.addAll arch mod
      ((decode (decoder cs arch base) offset (buf.drop offset)).map Prod.snd)) := by
  have hdrop : (buf.drop offset).length = buf.length - offset := List.length_drop
  have hkChunk : kChunk = 1048576 := rfl
  obtain ⟨turns, rfl⟩ : ∃ n, turns = n + 1 := ⟨turns - 1, by omega⟩
  rw [chunkLoop]
  by_cases hlt : offset < buf.length
  · obtain ⟨turns, rfl⟩ : ∃ n, turns = n + 1 := ⟨turns - 1, by omega⟩
    rw [if_pos hlt]
    simp only [Nat.min_eq_right hone]
    rw [List.take_of_length_le (by omega), disassemble_eq (by omega), decode_part,
      decide_eq_true (by omega), visit_last]
    dsimp only
    rw [if_pos (by omega), chunkLoop, if_neg (by omega)]
  · rw [if_neg hlt, List.drop_eq_nil_of_le (Nat.le_of_not_lt hlt)]
    simp

theorem wrapped_of_wraps {last p : ℕ} {xs : Bytes}
    (h : wraps base last (decode (decoder cs arch base) p xs) = true) :
    ∀ item ∈ decode (decoder cs arch base) p xs,
      fits 16 last item = true ∨ 2 ^ 64 ≤ base.toNat + item.1 + 16 := by
  induction hn : xs.length using Nat.strong_induction_on generalizing p xs with
  | _ n ih =>
    by_cases hxs : xs = []
    · simp [hxs]
    have hpos := (decoder cs arch base).step_pos p xs hxs
    have hle := (decoder cs arch base).step_le p xs
    intro item hitem
    by_cases hfit : fits 16 last (p, ((decoder cs arch base).step p xs).1) = true
    · rw [wraps, decode_cons hxs, List.dropWhile_cons_of_pos hfit] at h
      rw [decode_cons hxs] at hitem
      rcases List.mem_cons.1 hitem with rfl | hitem
      · exact .inl hfit
      · exact ih _ (by rw [List.length_drop]; omega) h rfl item hitem
    · rw [wraps, decode_cons hxs, List.dropWhile_cons_of_neg hfit, List.head?_cons,
        Option.any_some, decide_eq_true_iff] at h
      exact .inr (by have := (le_of_mem_decode hitem).1; omega)

theorem item_of_chunk {offset : ℕ} {item : ℕ × Instruction}
    (h : item ∈ decode (decoder cs arch base) offset ((buf.drop offset).take kChunk)) :
    item.1 < offset + kChunk ∧ item.2.address = base + UInt64.ofNat item.1 := by
  have hlt := (le_of_mem_decode h).2
  rw [List.length_take] at hlt
  exact ⟨by omega, address_of_mem h⟩

theorem chunkLoop_chunk {turns offset : ℕ} (hmore : offset + kChunk < buf.length)
    (found : Dissection) :
    chunkLoop cs arch mod base buf (turns + 1) offset found =
      let (next, found) := visit arch mod false base (base + UInt64.ofNat (offset + kChunk))
        ((decode (decoder cs arch base) offset ((buf.drop offset).take kChunk)).map Prod.snd)
        (offset + kChunk) found
      chunkLoop cs arch mod base buf turns (if next > offset then next else offset + kChunk)
        found := by
  have hkChunk : kChunk = 1048576 := rfl
  rw [chunkLoop, if_pos (by omega), Nat.min_eq_left (by omega)]
  dsimp only
  rw [disassemble_eq (by rw [List.length_take]; omega), decode_part, decide_eq_false (by omega),
    UInt64.ofNat_add, UInt64.add_assoc]

theorem chunkLoop_wraps (hfits : base.toNat + buf.length ≤ 2 ^ 64) {turns offset : ℕ}
    (hmore : offset + kChunk < buf.length) (hturns : buf.length - offset < turns + 1)
    (hwraps : wraps base (offset + kChunk)
      (decode (decoder cs arch base) offset ((buf.drop offset).take kChunk)) = true)
    (found : Dissection) :
    chunkLoop cs arch mod base buf (turns + 1) offset found = some (found.addAll arch mod
      ((decode (decoder cs arch base) offset ((buf.drop offset).take kChunk) ++
        decode (decoder cs arch base) (offset + kChunk) (buf.drop (offset + kChunk))).map
          Prod.snd)) := by
  have hkChunk : kChunk = 1048576 := rfl
  obtain ⟨first, hfirst, hfar⟩ := (Option.any_eq_true _ _).1 hwraps
  have hend := (item_of_chunk ((List.dropWhile_sublist _).subset
    (List.mem_of_mem_head? hfirst))).1
  have hfar : 2 ^ 64 ≤ base.toNat + first.1 + 16 := of_decide_eq_true hfar
  have hwhole : ∀ inst ∈ (decode (decoder cs arch base) offset
      ((buf.drop offset).take kChunk)).map Prod.snd,
      ¬inst.address + kMaxInstruction > base + UInt64.ofNat (offset + kChunk) := by
    intro inst hinst
    obtain ⟨item, hitem, rfl⟩ := List.mem_map.1 hinst
    obtain ⟨hlt, haddr⟩ := item_of_chunk hitem
    rcases wrapped_of_wraps hwraps item hitem with hfit | hwrapped
    · have hin : item.1 + 16 ≤ offset + kChunk := of_decide_eq_true hfit
      rw [ahead_gt_iff (by omega) haddr (by omega)]
      exact not_not.2 hfit
    · have h16 : kMaxInstruction = UInt64.ofNat 16 := rfl
      rw [haddr, h16, gt_iff_lt, UInt64.lt_iff_toNat_lt, toNat_add_ofNat (by omega),
        UInt64.toNat_add, toNat_add_ofNat (by omega), UInt64.toNat_ofNat_of_lt' (by decide)]
      omega
  rw [chunkLoop_chunk hmore, visit_whole _ _ _ hwhole]
  dsimp only
  rw [if_pos (by omega), chunkLoop_last (by omega) (by omega), addAll_append, List.map_append]

/-- Otherwise the loop goes on at the first item without a window left. -/
theorem chunkLoop_resume (hfits : base.toNat + buf.length ≤ 2 ^ 64) {turns offset : ℕ}
    (hmore : offset + kChunk < buf.length)
    (hwraps : wraps base (offset + kChunk)
      (decode (decoder cs arch base) offset ((buf.drop offset).take kChunk)) = false) :
    ∃ q insns, resume 16 (offset + kChunk)
        (decode (decoder cs arch base) offset ((buf.drop offset).take kChunk)) = q ∧
      offset < q ∧ q ≤ offset + kChunk ∧
      (decode (decoder cs arch base) offset (buf.drop offset)).map Prod.snd =
        insns ++ (decode (decoder cs arch base) q (buf.drop q)).map Prod.snd ∧
      ∀ found, chunkLoop cs arch mod base buf (turns + 1) offset found =
        chunkLoop cs arch mod base buf turns q (found.addAll arch mod insns) := by
  have hkChunk : kChunk = 1048576 := rfl
  have hdrop : (buf.drop offset).length = buf.length - offset := List.length_drop
  obtain ⟨q, hq, hle, hend, hmoves, hrest⟩ := @decode_take _ _ (decoder cs arch base) offset
    kChunk 16 (buf.drop offset) (show (15 : ℕ) ≤ 16 by decide) (by omega)
  have hadvance : offset < q := hmoves (by omega) (by omega)
  refine ⟨q, ((decode (decoder cs arch base) offset ((buf.drop offset).take kChunk)).takeWhile
    (fits 16 (offset + kChunk))).map Prod.snd, hq, hadvance, hend, ?_, fun found => ?_⟩
  · rw [hrest, List.drop_drop, Nat.add_sub_of_le hle, List.map_append]
  · rw [chunkLoop_chunk hmore, visit_items (by omega) _ (fun item hitem =>
      (item_of_chunk hitem).2) hwraps]
    dsimp only
    rw [hq, if_pos hadvance]

theorem chunkLoop_iff (hfits : base.toNat + buf.length ≤ 2 ^ 64) {turns offset : ℕ}
    (hoffset : offset ≤ buf.length) (hturns : buf.length - offset < turns) (found : Dissection) :
    chunkLoop cs arch mod base buf turns offset found = some (found.addAll arch mod
      ((decode (decoder cs arch base) offset (buf.drop offset)).map Prod.snd)) ↔
      CutsWell cs arch base buf turns offset := by
  induction turns generalizing offset found with
  | zero => omega
  | succ turns ih =>
    rw [CutsWell]
    by_cases hmore : offset + kChunk < buf.length
    · rw [imp_iff_right hmore]
      dsimp only
      cases hwraps : wraps base (offset + kChunk)
          (decode (decoder cs arch base) offset ((buf.drop offset).take kChunk)) with
      | true =>
        rw [if_pos rfl, chunkLoop_wraps hfits hmore hturns hwraps, Option.some_inj, addAll_inj]
      | false =>
        obtain ⟨q, insns, hq, hlt, hle, hdecode, hloop⟩ :=
          @chunkLoop_resume cs arch mod base buf hfits turns offset hmore hwraps
        rw [if_neg Bool.false_ne_true, hq, hloop, hdecode, ← addAll_append]
        exact ih (by omega) (by omega) _
    · exact iff_of_true (chunkLoop_last (by omega) hturns found) fun h => absurd h hmore

/-- Instructions and data over so many bytes. -/
def Fills (n : ℕ) (insns : List Instruction) : Prop :=
  (insns.map Instruction.size).sum = n ∧ ∀ inst ∈ insns, 0 < inst.size

theorem fills_decode (p : ℕ) (xs : Bytes) :
    Fills xs.length ((decode (decoder cs arch base) p xs).map Prod.snd) := by
  induction hn : xs.length using Nat.strong_induction_on generalizing p xs with
  | _ n ih =>
    by_cases hxs : xs = []
    · subst hxs
      subst hn
      simp [Fills]
    have hpos := (decoder cs arch base).step_pos p xs hxs
    have hle := (decoder cs arch base).step_le p xs
    obtain ⟨hsum, hsizes⟩ := ih (xs.length - ((decoder cs arch base).step p xs).2) (by omega)
      (p + ((decoder cs arch base).step p xs).2) _ List.length_drop
    have hitem : ((decoder cs arch base).step p xs).1.size = ((decoder cs arch base).step p xs).2 :=
      rfl
    rw [decode_cons hxs, List.map_cons]
    refine ⟨?_, ?_⟩
    · rw [List.map_cons, List.sum_cons, hsum, hitem]
      omega
    · intro inst hinst
      rcases List.mem_cons.1 hinst with rfl | hinst
      · exact hpos
      · exact hsizes inst hinst

theorem fills_append {n m : ℕ} {insns insns' : List Instruction} (h : Fills n insns)
    (h' : Fills m insns') : Fills (n + m) (insns ++ insns') := by
  refine ⟨by rw [List.map_append, List.sum_append, h.1, h'.1], ?_⟩
  intro inst hinst
  exact (List.mem_append.1 hinst).elim (h.2 inst) (h'.2 inst)

theorem fills_split {n : ℕ} {xs ys zs ws : List Instruction} (hxs : Fills n xs) (hys : Fills n ys)
    (h : xs ++ zs = ys ++ ws) : xs = ys ∧ zs = ws := by
  rcases List.append_eq_append_iff.1 h with ⟨as, rfl, hz⟩ | ⟨bs, rfl, hw⟩
  · cases as with
    | nil => exact ⟨(List.append_nil _).symm, hz⟩
    | cons inst as =>
      have hpos := hys.2 inst (by simp)
      have hsum := hys.1
      rw [List.map_append, List.sum_append, hxs.1, List.map_cons, List.sum_cons] at hsum
      omega
  · cases bs with
    | nil => exact ⟨List.append_nil _, hw.symm⟩
    | cons inst bs =>
      have hpos := hxs.2 inst (by simp)
      have hsum := hxs.1
      rw [List.map_append, List.sum_append, hys.1, List.map_cons, List.sum_cons] at hsum
      omega

theorem chunkLoop_returns (hfits : base.toNat + buf.length ≤ 2 ^ 64) {turns offset : ℕ}
    (hoffset : offset ≤ buf.length) (hturns : buf.length - offset < turns) :
    ∃ insns, Fills (buf.length - offset) insns ∧ ∀ found,
      chunkLoop cs arch mod base buf turns offset found = some (found.addAll arch mod insns) := by
  induction turns generalizing offset with
  | zero => omega
  | succ turns ih =>
    have hdrop : (buf.drop offset).length = buf.length - offset := List.length_drop
    have hall := @fills_decode cs arch base offset (buf.drop offset)
    rw [hdrop] at hall
    by_cases hmore : offset + kChunk < buf.length
    · cases hwraps : wraps base (offset + kChunk)
          (decode (decoder cs arch base) offset ((buf.drop offset).take kChunk)) with
      | true =>
        refine ⟨_, ?_, chunkLoop_wraps hfits hmore hturns hwraps⟩
        have hchunk := fills_append
          (@fills_decode cs arch base offset ((buf.drop offset).take kChunk))
          (@fills_decode cs arch base (offset + kChunk) (buf.drop (offset + kChunk)))
        rw [List.length_take, List.length_drop, List.length_drop] at hchunk
        rw [List.map_append]
        rwa [show min kChunk (buf.length - offset) + (buf.length - (offset + kChunk)) =
          buf.length - offset by omega] at hchunk
      | false =>
        obtain ⟨q, insns, -, hlt, hle, hdecode, hloop⟩ :=
          @chunkLoop_resume cs arch mod base buf hfits turns offset hmore hwraps
        obtain ⟨rest, hrest, hreturns⟩ := @ih q (by omega) (by omega)
        have hbehind := @fills_decode cs arch base q (buf.drop q)
        rw [List.length_drop] at hbehind
        rw [hdecode] at hall
        refine ⟨insns ++ rest, ⟨?_, ?_⟩, fun found => ?_⟩
        · have hsum := hall.1
          rw [List.map_append, List.sum_append, hbehind.1] at hsum
          rw [List.map_append, List.sum_append, hrest.1]
          exact hsum
        · intro inst hinst
          exact (List.mem_append.1 hinst).elim
            (fun h => hall.2 inst (List.mem_append_left _ h)) (hrest.2 inst)
        · rw [hloop, hreturns, addAll_append]
    · exact ⟨_, hall, chunkLoop_last (by omega) hturns⟩

end Linear

/-! ### One pass over a module -/

section Module

variable {cs : Capstone} {arch : Arch} {proc : ProcessHandle} {mod : ModuleInfo}

def linearModule (cs : Capstone) (arch : Arch) (proc : ProcessHandle) (mod : ModuleInfo)
    (regions : List MemoryRegion) : List Instruction :=
  (regions.filter (inModule mod)).flatMap fun r => linear cs arch r.base (proc.readRegion r)

/-- The regions of a module whose bytes are in the address space. -/
def Readable (proc : ProcessHandle) (mod : ModuleInfo) (turns : ℕ) (r : MemoryRegion) : Prop :=
  inModule mod r = true →
    r.base.toNat + (proc.readRegion r).length ≤ 2 ^ 64 ∧ (proc.readRegion r).length < turns

theorem dissectRegions_returns {turns : ℕ} (regions : List MemoryRegion)
    (hread : ∀ r ∈ regions, Readable proc mod turns r) : ∃ insns, ∀ found,
      dissectRegions cs arch proc mod turns regions found =
        some (found.addAll arch mod insns) := by
  induction regions with
  | nil => exact ⟨[], fun found => by rw [dissectRegions, addAll_nil]⟩
  | cons r rest ih =>
    obtain ⟨insns, hrest⟩ := ih fun r' hr' => hread r' (List.mem_cons_of_mem _ hr')
    cases hin : inModule mod r with
    | false => exact ⟨insns, fun found => by
        rw [dissectRegions, if_neg (by rw [hin]; exact Bool.false_ne_true), hrest]⟩
    | true =>
      obtain ⟨hfits, hturns⟩ := hread r List.mem_cons_self hin
      obtain ⟨visited, -, hloop⟩ := @chunkLoop_returns cs arch mod _ _ hfits turns 0
        (Nat.zero_le _) hturns
      exact ⟨visited ++ insns, fun found => by
        rw [dissectRegions, if_pos hin, hloop]
        dsimp only
        rw [hrest, addAll_append]⟩

theorem dissectRegions_iff {turns : ℕ} (regions : List MemoryRegion)
    (hread : ∀ r ∈ regions, Readable proc mod turns r) (found : Dissection) :
    dissectRegions cs arch proc mod turns regions found =
      some (found.addAll arch mod (linearModule cs arch proc mod regions)) ↔
      ∀ r ∈ regions, inModule mod r = true →
        CutsWell cs arch r.base (proc.readRegion r) turns 0 := by
  induction regions generalizing found with
  | nil => simp [dissectRegions, linearModule]
  | cons r rest ih =>
    have hreads : ∀ r' ∈ rest, Readable proc mod turns r' := fun r' hr' =>
      hread r' (List.mem_cons_of_mem _ hr')
    rw [dissectRegions, List.forall_mem_cons]
    cases hin : inModule mod r with
    | false =>
      rw [if_neg Bool.false_ne_true, linearModule, List.filter_cons_of_neg
        (by rw [hin]; exact Bool.false_ne_true), ← linearModule, ih hreads]
      exact (and_iff_right fun h => absurd h Bool.false_ne_true).symm
    | true =>
      obtain ⟨hfits, hturns⟩ := hread r List.mem_cons_self hin
      obtain ⟨visited, hvisited, hloop⟩ := @chunkLoop_returns cs arch mod _ _ hfits turns 0
        (Nat.zero_le _) hturns
      obtain ⟨insns, hrest⟩ := @dissectRegions_returns cs arch proc mod turns rest hreads
      have hlinear : Fills ((proc.readRegion r).length - 0)
          (linear cs arch r.base (proc.readRegion r)) := fills_decode _ _
      have hcut := @chunkLoop_iff cs arch mod _ _ hfits turns 0 (Nat.zero_le _) hturns found
      rw [hloop, Option.some_inj, addAll_inj, List.drop_zero, ← linear] at hcut
      rw [if_pos rfl, linearModule, List.filter_cons_of_pos hin, List.flatMap_cons,
        ← linearModule, hloop, imp_iff_right rfl, ← hcut, ← ih hreads (found.addAll arch mod
          visited)]
      dsimp only
      rw [hrest, Option.some_inj, Option.some_inj, addAll_inj, addAll_append, addAll_inj]
      constructor
      · intro h
        exact fills_split hvisited hlinear h
      · rintro ⟨rfl, rfl⟩
        rfl

/-- Whatever the decoder and the contents of the regions, the chunk loops end; they have visited
what one pass over each region gives, and found the references of that, if and only if the bytes of
every region are cut well. One call for all of the bytes of a region is such a pass. -/
theorem dissectModule_linear_iff (cs : Capstone) (arch : Arch) (proc : ProcessHandle)
    (mod : ModuleInfo) (turns : ℕ)
    (hread : ∀ r ∈ proc.queryRegions, Readable proc mod turns r) :
    (∃ found, dissectModule cs arch turns proc mod = some found) ∧
    (dissectModule cs arch turns proc mod =
      some ⟨linearModule cs arch proc mod proc.queryRegions,
        (linearModule cs arch proc mod proc.queryRegions).filterMap (refOf arch mod)⟩ ↔
      ∀ r ∈ proc.queryRegions, inModule mod r = true →
        CutsWell cs arch r.base (proc.readRegion r) turns 0) ∧
    ∀ (base : UInt64) (buf : Bytes), buf.length < 2 ^ 64 →
      disassemble cs arch base buf 0 true = linear cs arch base buf := by
  obtain ⟨insns, hinsns⟩ := @dissectRegions_returns cs arch proc mod turns _ hread
  refine ⟨⟨_, hinsns {}⟩, ?_, fun base buf => disassemble_eq⟩
  rw [← dissectRegions_iff _ hread {}]
  simp [dissectModule, Dissection.addAll]

end Module

/-! ### A jump that the end of a chunk cuts -/

section Cut

variable {base : UInt64} {arch : Arch} {mod : ModuleInfo} {buf : Bytes}

/-- Chunks that end below the last bytes of the address space are cut well. -/
theorem cutsWell_of_le {cs : Capstone} (hfits : base.toNat + buf.length + 15 ≤ 2 ^ 64)
    (turns offset : ℕ) : CutsWell cs arch base buf turns offset := by
  induction turns generalizing offset with
  | zero => trivial
  | succ turns ih =>
    intro hmore
    dsimp only
    rw [if_neg]
    · exact ih _
    · intro hwraps
      obtain ⟨first, hfirst, hfar⟩ := (Option.any_eq_true _ _).1 hwraps
      have hend := (item_of_chunk ((List.dropWhile_sublist _).subset
        (List.mem_of_mem_head? hfirst))).1
      have hfar : 2 ^ 64 ≤ base.toNat + first.1 + 16 := of_decide_eq_true hfar
      omega

/-- Decodes `nop`, `jmp rel8` and, behind a prefix, a `nop` of fifteen bytes. -/
def nopsAndJumps : Capstone where
  one address
    | 0x90 :: _ => some { address, bytes := [0x90], mnemonic := lit "nop", size := 1 }
    | 0xeb :: d :: _ => some {
        address
        bytes := [0xeb, d]
        mnemonic := lit "jmp"
        operands := CtFile.hexText (address + 2 + UInt64.ofBitVec (d.toBitVec.signExtend 64))
        size := 2 }
    | 0x66 :: rest =>
      if rest.length < 14 then none
      else some { address, bytes := 0x66 :: rest.take 14, mnemonic := lit "nop", size := 15 }
    | _ => none
  one_take address code := by
    rcases code with _ | ⟨b, _ | ⟨d, rest⟩⟩
    · rfl
    · rfl
    · rw [List.take_succ_cons, List.take_succ_cons]
      by_cases hjump : b = 0xeb
      · subst hjump
        rfl
      · by_cases hnop : b = 0x90
        · subst hnop
          rfl
        · by_cases hlong : b = 0x66
          · subst hlong
            have hlen : min 13 rest.length + 1 < 14 ↔ rest.length + 1 < 14 := by omega
            simp [List.length_take, List.take_take, hlen]
          · simp [hjump, hnop, hlong]
  one_some address code insn h := by
    split at h
    · cases h
      exact ⟨rfl, Nat.one_pos, Nat.succ_le_succ (Nat.zero_le _)⟩
    · cases h
      exact ⟨rfl, Nat.two_pos, Nat.succ_le_succ (Nat.succ_le_succ (Nat.zero_le _))⟩
    · split at h
      · cases h
      · cases h
        exact ⟨rfl, Nat.succ_pos 14, Nat.succ_le_succ (Nat.le_of_not_lt (by assumption))⟩
    · cases h

def longNop : Bytes := List.replicate 14 0x66 ++ [0x90]

/-- Behind so many `nop`s a long one, a jump and fourteen more. -/
def jumpBehind (n : ℕ) : Bytes :=
  List.replicate n 0x90 ++ (longNop ++ ([0xeb, 0x10] ++ List.replicate 14 0x90))

theorem length_jumpBehind (n : ℕ) : (jumpBehind n).length = n + 31 := by
  rw [jumpBehind, List.length_append, List.length_replicate]
  rfl

theorem decode_nops (n p : ℕ) (rest : Bytes) :
    ∃ nops, nops.length = n ∧
      (∀ item ∈ nops, item.1 < p + n ∧ refOf arch mod item.2 = none) ∧
      decode (decoder nopsAndJumps arch base) p (List.replicate n 0x90 ++ rest) =
        nops ++ decode (decoder nopsAndJumps arch base) (p + n) rest := by
  induction n generalizing p with
  | zero => exact ⟨[], rfl, by simp, rfl⟩
  | succ n ih =>
    obtain ⟨nops, hlen, hmem, hnops⟩ := ih (p + 1)
    refine ⟨(p, item nopsAndJumps arch base p (0x90 :: (List.replicate n 0x90 ++ rest))) :: nops,
      congrArg Nat.succ hlen, ?_, ?_⟩
    · intro item hitem
      rcases List.mem_cons.1 hitem with rfl | hitem
      · exact ⟨Nat.lt_add_of_pos_right (Nat.succ_pos n), rfl⟩
      · have hbound := hmem item hitem
        exact ⟨by omega, hbound.2⟩
    · rw [List.replicate_succ, List.cons_append, decode_cons (List.cons_ne_nil _ _), Nat.add_comm n,
        ← Nat.add_assoc]
      exact congrArg _ hnops

theorem decode_append (p : ℕ) {code : Bytes} (rest : Bytes) (hcode : code ≠ [])
    (hsize : (item nopsAndJumps arch base p (code ++ rest)).size = code.length) :
    decode (decoder nopsAndJumps arch base) p (code ++ rest) =
      (p, item nopsAndJumps arch base p (code ++ rest)) ::
        decode (decoder nopsAndJumps arch base) (p + code.length) rest := by
  have hstep : ((decoder nopsAndJumps arch base).step p (code ++ rest)).2 = code.length := hsize
  rw [decode_cons (fun h => hcode (List.append_eq_nil_iff.1 h).1), hstep, List.drop_left]
  rfl

theorem linear_jumpBehind (n : ℕ) : ∃ nops nops', nops.length = n ∧ nops'.length = 14 ∧
    (∀ inst ∈ nops ++ nops', refOf arch mod inst = none) ∧
    linear nopsAndJumps arch base (jumpBehind n) =
      nops ++ item nopsAndJumps arch base n longNop ::
        item nopsAndJumps arch base (n + 15) [0xeb, 0x10] :: nops' := by
  obtain ⟨nops, hlen, hmem, hnops⟩ := @decode_nops base arch mod n 0
    (longNop ++ ([0xeb, 0x10] ++ List.replicate 14 0x90))
  obtain ⟨nops', hlen', hmem', hnops'⟩ := @decode_nops base arch mod 14 (n + 15 + 2) []
  refine ⟨nops.map Prod.snd, nops'.map Prod.snd, by rw [List.length_map, hlen],
    by rw [List.length_map, hlen'], ?_, ?_⟩
  · intro inst hinst
    rw [← List.map_append] at hinst
    obtain ⟨item, hitem, rfl⟩ := List.mem_map.1 hinst
    exact (List.mem_append.1 hitem).elim (fun h => (hmem item h).2) fun h => (hmem' item h).2
  · rw [List.append_nil, decode_nil, List.append_nil] at hnops'
    rw [linear, jumpBehind, hnops, Nat.zero_add, decode_append n _ (by decide) rfl,
      decode_append _ _ (by decide) rfl, show n + longNop.length +
        ([0xeb, 0x10] : Bytes).length = n + 15 + 2 from rfl, hnops', List.map_append]
    rfl

def oneRegion (base : UInt64) (buf : Bytes) : ProcessHandle where
  queryRegions := [⟨base, UInt64.ofNat buf.length, true⟩]
  read _ n := some (buf.take n)

/-- The `nop`s in front have a window left. -/
theorem dropWhile_nops {n p last : ℕ} (hlast : p + n + 15 ≤ last) (rest : Bytes) :
    (decode (decoder nopsAndJumps arch base) p (List.replicate n 0x90 ++ rest)).dropWhile
        (fits 16 last) =
      (decode (decoder nopsAndJumps arch base) (p + n) rest).dropWhile (fits 16 last) := by
  obtain ⟨nops, -, hmem, hnops⟩ := @decode_nops base arch ⟨0, 0⟩ n p rest
  rw [hnops, List.dropWhile_append_of_pos]
  intro item hitem
  have hbound := (hmem item hitem).1
  exact decide_eq_true (by omega)

theorem length_decode_nops (n p : ℕ) (rest : Bytes) :
    (decode (decoder nopsAndJumps arch base) p (List.replicate n 0x90 ++ rest)).length =
      n + (decode (decoder nopsAndJumps arch base) (p + n) rest).length := by
  obtain ⟨nops, hlen, -, hnops⟩ := @decode_nops base arch ⟨0, 0⟩ n p rest
  rw [hnops, List.length_append, hlen]

theorem dropWhile_first {p last : ℕ} {rest : Bytes} (hrest : rest ≠ []) (hlast : last < p + 16) :
    ∃ items, (decode (decoder nopsAndJumps arch base) p rest).dropWhile (fits 16 last) =
      (p, item nopsAndJumps arch base p rest) :: items := by
  have hout : ¬fits 16 last (p, ((decoder nopsAndJumps arch base).step p rest).1) = true := by
    rw [fits, decide_eq_true_iff]
    dsimp only
    omega
  rw [decode_cons hrest, List.dropWhile_cons_of_neg hout]
  exact ⟨_, rfl⟩

theorem jumpBehind_not_cutsWell {n turns : ℕ} (hn : n = 2097121)
    (hbase : base.toNat + n + 31 = 2 ^ 64) :
    ¬CutsWell nopsAndJumps .x86_64 base (jumpBehind n) (turns + 2) 0 := by
  have hkChunk : kChunk = 1048576 := rfl
  have hlong : longNop.length = 15 := rfl
  have hlen := length_jumpBehind n
  -- the first chunk is only `nop`s, and the fifteen last are decoded again
  have hfirst : ((jumpBehind n).drop 0).take kChunk =
      List.replicate 1048561 0x90 ++ List.replicate 15 0x90 := by
    rw [List.drop_zero, jumpBehind, List.take_append_of_le_length
      (by rw [List.length_replicate]; omega), List.take_replicate, Nat.min_eq_left (by omega),
      List.replicate_append_replicate, hkChunk]
  obtain ⟨items, hitems⟩ := @dropWhile_first base .x86_64 (0 + 1048561) (0 + kChunk)
    (List.replicate 15 0x90) (by decide) (by omega)
  -- the second one ends behind the first byte of the jump
  have hsecond : ((jumpBehind n).drop 1048561).take kChunk =
      List.replicate 1048560 0x90 ++ (longNop ++ ([0xeb] ++ [])) := by
    rw [jumpBehind, List.drop_append_of_le_length (by rw [List.length_replicate]; omega),
      List.drop_replicate, hn, List.take_append, List.take_of_length_le
        (by rw [List.length_replicate]; omega), List.length_replicate, hkChunk]
    rfl
  have hrest : (jumpBehind n).drop 1048561 = List.replicate 1048560 0x90 ++
      (longNop ++ ([0xeb, 0x10] ++ (List.replicate 14 0x90 ++ []))) := by
    rw [jumpBehind, List.drop_append_of_le_length (by rw [List.length_replicate]; omega),
      List.drop_replicate, hn]
    rfl
  have hbehind : (jumpBehind n).drop (1048561 + kChunk) = [0x10] ++ (List.replicate 14 0x90 ++ [])
      := by
    rw [← List.drop_drop, hrest, List.drop_append, List.drop_eq_nil_of_le
      (by rw [List.length_replicate]; omega), List.length_replicate, hkChunk]
    rfl
  rw [CutsWell]
  intro h
  have hnext := h (by omega)
  dsimp only at hnext
  rw [hfirst, wraps, resume, dropWhile_nops (by omega), hitems, List.head?_cons, Option.any_some,
    if_neg (by rw [decide_eq_true_iff]; dsimp only; omega)] at hnext
  dsimp only at hnext
  rw [Nat.zero_add, CutsWell] at hnext
  have hcut := hnext (by omega)
  dsimp only at hcut
  obtain ⟨cut, hfirstCut⟩ := @dropWhile_first base .x86_64 (1048561 + 1048560 + longNop.length)
    (1048561 + kChunk) ([0xeb] ++ []) (by decide) (by omega)
  rw [if_pos] at hcut
  · have hchunk : (decode (decoder nopsAndJumps .x86_64 base) 1048561
        (List.replicate 1048560 0x90 ++ (longNop ++ ([0xeb] ++ [])))).length = 1048562 := by
      rw [length_decode_nops, decode_append _ _ (by decide) rfl, decode_append _ _ (by decide) rfl,
        decode_nil]
      rfl
    have hlast : (decode (decoder nopsAndJumps .x86_64 base) (1048561 + kChunk)
        ([0x10] ++ (List.replicate 14 0x90 ++ []))).length = 15 := by
      rw [decode_append _ _ (by decide) rfl, List.length_cons, length_decode_nops, decode_nil]
      rfl
    have hwhole : (decode (decoder nopsAndJumps .x86_64 base) 1048561
        (List.replicate 1048560 0x90 ++
          (longNop ++ ([0xeb, 0x10] ++ (List.replicate 14 0x90 ++ []))))).length = 1048576 := by
      rw [length_decode_nops, decode_append _ _ (by decide) rfl, decode_append _ _ (by decide) rfl,
        List.length_cons, List.length_cons, length_decode_nops, decode_nil]
      rfl
    have hcount := congrArg List.length hcut
    rw [List.length_map, List.length_map, hsecond, hrest, hbehind, List.length_append, hchunk,
      hlast, hwhole] at hcount
    omega
  · rw [hsecond, wraps, dropWhile_nops (by omega), decode_append _ _ (by decide) rfl,
      List.dropWhile_cons_of_pos, hfirstCut, List.head?_cons, Option.any_some,
      decide_eq_true_iff]
    · dsimp only
      omega
    · rw [fits, decide_eq_true_iff]
      dsimp only
      omega

theorem readRegion_oneRegion (hmax : buf.length ≤ kMaxAnalysisRegion) :
    (oneRegion base buf).readRegion ⟨base, UInt64.ofNat buf.length, true⟩ = buf := by
  have hkMax : kMaxAnalysisRegion = 536870912 := rfl
  have hread : (oneRegion base buf).read base buf.length = some (buf.take buf.length) := rfl
  rw [ProcessHandle.readRegion]
  dsimp only
  rw [UInt64.toNat_ofNat_of_lt' (by rw [UInt64.size]; omega), Nat.min_eq_left hmax, hread,
    List.take_length, Option.getD_some, List.take_length]

theorem readable_oneRegion (hmax : buf.length ≤ kMaxAnalysisRegion)
    (hfits : base.toNat + buf.length ≤ 2 ^ 64) :
    ∀ r ∈ (oneRegion base buf).queryRegions,
      Readable (oneRegion base buf) mod (buf.length + 2) r := by
  intro r hr _
  rw [List.mem_singleton.1 hr, readRegion_oneRegion hmax]
  exact ⟨hfits, Nat.lt_add_of_pos_right Nat.two_pos⟩

/-- The jump that the end of a chunk cuts in the last bytes of the address space is lost. -/
theorem dissectModule_misses_jump : ¬∀ (cs : Capstone) (arch : Arch) (proc : ProcessHandle)
    (mod : ModuleInfo) (turns : ℕ), (∀ r ∈ proc.queryRegions, Readable proc mod turns r) →
      dissectModule cs arch turns proc mod =
        some ⟨linearModule cs arch proc mod proc.queryRegions,
          (linearModule cs arch proc mod proc.queryRegions).filterMap (refOf arch mod)⟩ := by
  intro h
  obtain ⟨n, hn⟩ : ∃ n, n = 2097121 := ⟨_, rfl⟩
  have hbase : (0xffffffffffe00000 : UInt64).toNat = 2 ^ 64 - 2 ^ 21 := rfl
  have hkMax : kMaxAnalysisRegion = 536870912 := rfl
  have hlen := length_jumpBehind n
  have hmax : (jumpBehind n).length ≤ kMaxAnalysisRegion := by omega
  have hread := @readable_oneRegion 0xffffffffffe00000 ⟨0xffffffffffe00000, 0x100000⟩ _ hmax
    (by omega)
  have hcut := (dissectRegions_iff _ hread {}).1
    ((h nopsAndJumps .x86_64 _ ⟨0xffffffffffe00000, 0x100000⟩ _ hread).trans
      (by simp [Dissection.addAll])) _ (List.mem_singleton.2 rfl) rfl
  rw [readRegion_oneRegion hmax] at hcut
  exact jumpBehind_not_cutsWell hn (by dsimp only; omega) hcut

/-- Elsewhere a jump that the end of a chunk cuts is found. -/
theorem dissectModule_linear_iff_cut : ∃ visited,
    dissectModule nopsAndJumps .x86_64 2097154 (oneRegion 0x400000 (jumpBehind 2097121))
        ⟨0x400000, 0x200000⟩ =
      some ⟨visited, [⟨0x5ffff0, 0x600002, .jump, lit "jmp 0x600002"⟩]⟩ := by
  obtain ⟨n, hn⟩ : ∃ n, n = 2097121 := ⟨_, rfl⟩
  have hbase : (0x400000 : UInt64).toNat = 4194304 := rfl
  have hkMax : kMaxAnalysisRegion = 536870912 := rfl
  have hlen := length_jumpBehind n
  have hmax : (jumpBehind n).length ≤ kMaxAnalysisRegion := by omega
  have hread := @readable_oneRegion 0x400000 ⟨0x400000, 0x200000⟩ _ hmax (by omega)
  have hdissect := (dissectModule_linear_iff nopsAndJumps .x86_64 _ _ _ hread).2.1.2
    fun r hr _ => by
      rw [List.mem_singleton.1 hr, readRegion_oneRegion hmax]
      exact cutsWell_of_le (by dsimp only; omega) _ _
  have hlinear : linearModule nopsAndJumps .x86_64 (oneRegion 0x400000 (jumpBehind n))
      ⟨0x400000, 0x200000⟩ (oneRegion 0x400000 (jumpBehind n)).queryRegions =
        linear nopsAndJumps .x86_64 0x400000 (jumpBehind n) := by
    rw [linearModule, oneRegion, List.filter_cons_of_pos rfl, List.filter_nil, List.flatMap_cons,
      List.flatMap_nil, List.append_nil, ← oneRegion, readRegion_oneRegion hmax]
  obtain ⟨nops, nops', -, -, hnone, hvisited⟩ :=
    @linear_jumpBehind 0x400000 .x86_64 ⟨0x400000, 0x200000⟩ n
  have hnops : ∀ insns : List Instruction, (∀ inst ∈ insns, inst ∈ nops ++ nops') →
      insns.filterMap (refOf .x86_64 ⟨0x400000, 0x200000⟩) = [] := fun insns h =>
    List.filterMap_eq_nil_iff.2 fun inst hinst => hnone inst (h inst hinst)
  have hlong : refOf .x86_64 ⟨0x400000, 0x200000⟩
      (item nopsAndJumps .x86_64 0x400000 2097121 longNop) = none := by decide
  have hjump : refOf .x86_64 ⟨0x400000, 0x200000⟩
      (item nopsAndJumps .x86_64 0x400000 (2097121 + 15) [0xeb, 0x10]) =
        some ⟨0x5ffff0, 0x600002, .jump, lit "jmp 0x600002"⟩ := by decide
  rw [hlinear, hvisited, hlen, hn, List.filterMap_append, List.filterMap_cons_none hlong,
    List.filterMap_cons_some hjump, hnops nops fun inst h => List.mem_append_left _ h,
    hnops nops' fun inst h => List.mem_append_right _ h, List.nil_append] at hdissect
  exact ⟨_, hdissect⟩

end Cut

end CheatEngine.CodeAnalysis
