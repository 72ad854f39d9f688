import CheatEngineLinux.Library.BitFields
import CheatEngineLinux.Library.Stops

/-!
# The registers of a stopped thread

`src/platform/linux/target_debug.cpp` on x86-64: the general registers go to the kernel as a whole,
the debug registers one by one, and what was written is read back.

* `Kernel`: which calls fail, by the time of the call, and what a debug register stores.
* `Thread`: the registers of the thread.
* `writeNativeContext`, `readNativeHardwareBank`, `restoreNativeHardwareBank`,
  `setNativeHardwareBreakpoint`, `removeNativeHardwareBreakpoint`.
-/

namespace CheatEngine.TargetDebug

open BitFields Stops

/-- `user_regs_struct` -/
structure UserRegs where
  r15 : BitVec 64
  r14 : BitVec 64
  r13 : BitVec 64
  r12 : BitVec 64
  rbp : BitVec 64
  rbx : BitVec 64
  r11 : BitVec 64
  r10 : BitVec 64
  r9 : BitVec 64
  r8 : BitVec 64
  rax : BitVec 64
  rcx : BitVec 64
  rdx : BitVec 64
  rsi : BitVec 64
  rdi : BitVec 64
  orig_rax : BitVec 64
  rip : BitVec 64
  cs : BitVec 64
  eflags : BitVec 64
  rsp : BitVec 64
  ss : BitVec 64
  fs_base : BitVec 64
  gs_base : BitVec 64
  ds : BitVec 64
  es : BitVec 64
  fs : BitVec 64
  gs : BitVec 64
  deriving DecidableEq

/-- The members of `CpuArchitecture` that these functions use, and the rest as one. -/
inductive CpuArchitecture
  | unknown
  | x86_32
  | x86_64
  | other
  deriving Repr, DecidableEq

/-- `CpuContext`, the part of x86. -/
structure CpuContext where
  rax : BitVec 64
  rbx : BitVec 64
  rcx : BitVec 64
  rdx : BitVec 64
  rsi : BitVec 64
  rdi : BitVec 64
  rbp : BitVec 64
  rsp : BitVec 64
  r8 : BitVec 64
  r9 : BitVec 64
  r10 : BitVec 64
  r11 : BitVec 64
  r12 : BitVec 64
  r13 : BitVec 64
  r14 : BitVec 64
  r15 : BitVec 64
  rip : BitVec 64
  rflags : BitVec 64
  cs : BitVec 64
  ss : BitVec 64
  ds : BitVec 64
  es : BitVec 64
  fs : BitVec 64
  gs : BitVec 64
  dr0 : BitVec 64
  dr1 : BitVec 64
  dr2 : BitVec 64
  dr3 : BitVec 64
  dr6 : BitVec 64
  dr7 : BitVec 64
  architecture : CpuArchitecture
  debugRegistersValid : Bool
  deriving DecidableEq

inductive HardwareBreakpointAccess
  | execute
  | write
  | readWrite
  /-- A value outside the enumeration. -/
  | other
  deriving Repr, DecidableEq

/-- `NativeHardwareBank::Slot` -/
structure Slot where
  address : BitVec 64 := 0
  control : BitVec 32 := 0
  deriving Repr, DecidableEq

structure NativeHardwareBank where
  entries : ℕ → Slot := fun _ => {}
  count : ℕ := 0
  status : BitVec 64 := 0
  control : BitVec 64 := 0

inductive Error
  /-- `kernelError` -/
  | kernel (errno : ℕ)
  /-- `invalid_argument` -/
  | invalid
  /-- `io_error` -/
  | io
  /-- `state_not_recoverable` -/
  | brokenRestore
  deriving Repr, DecidableEq

/-- A `PTRACE_SETREGS` that fails part way, and the registers that it leaves. -/
structure Failure where
  errno : ℕ
  left : UserRegs

/-- The calls that fail, by their time, and what a debug register stores of a value.  A value that
was stored is stored as it is. -/
structure Kernel where
  getRegs : ℕ → Option ℕ
  setRegs : ℕ → Option Failure
  peekUser : ℕ → Option ℕ
  pokeUser : ℕ → Option ℕ
  stored : ℕ → BitVec 64 → BitVec 64
  stored_stored : ∀ index value, stored index (stored index value) = stored index value

/-- The registers of a thread; what the debug registers hold is what they can store. -/
structure Thread (k : Kernel) where
  regs : UserRegs
  dr : ℕ → BitVec 64
  kept : ∀ index, k.stored index (dr index) = dr index
  now : ℕ := 0

abbrev Run (k : Kernel) := Program Error (Thread k)

variable {k : Kernel}

/-- Takes the next answer. -/
def ask {α : Type} (answers : ℕ → α) : Run k α := fun t =>
  (.ok (answers t.now), { t with now := t.now + 1 })

/-! ### Calls -/

/-- `PTRACE_GETREGS` -/
def getRegs : Run k UserRegs := do
  match ← ask k.getRegs with
  | some errno => throw (.kernel errno)
  | none =>
    let t ← get
    pure t.regs

/-- `PTRACE_SETREGS` -/
def setRegs (regs : UserRegs) : Run k Unit := do
  match ← ask k.setRegs with
  | some failure => do
    modify fun t => { t with regs := failure.left }
    throw (.kernel failure.errno)
  | none => modify fun t => { t with regs }

def readDr (index : ℕ) : Run k (BitVec 64) := do
  match ← ask k.peekUser with
  | some errno => throw (.kernel errno)
  | none =>
    let t ← get
    pure (t.dr index)

/-- A debug register stores a value. -/
def Thread.store (t : Thread k) (index : ℕ) (value : BitVec 64) : Thread k :=
  { t with
    dr := Function.update t.dr index (k.stored index value)
    kept := fun i => by
      by_cases h : i = index
      · subst h
        simp [k.stored_stored]
      · simp [h, t.kept] }

def writeDr (index : ℕ) (value : BitVec 64) : Run k Unit := do
  match ← ask k.pokeUser with
  | some errno => throw (.kernel errno)
  | none => modify fun t => t.store index value

/-- The bits that `verifyDr` compares: the others are reserved. -/
def verifyMask (index : ℕ) : BitVec 64 :=
  if index = 7 then 0xffff03ff#64 else if index = 6 then 0xe00f#64 else BitVec.allOnes 64

def verifyDr (index : ℕ) (value : BitVec 64) : Run k Bool := do
  match ← attempt (readDr index) with
  | .ok observed => pure (decide (Agree (verifyMask index) observed value))
  | .error _ => pure false

def succeeds (m : Run k Unit) : Run k Bool := do
  match ← attempt m with
  | .ok _ => pure true
  | .error _ => pure false

/-! ### Contexts -/

/-- `(r.cs & 0xffff) == 0x23` -/
def architectureOf (regs : UserRegs) : CpuArchitecture :=
  if regs.cs &&& 0xffff#64 = 0x23#64 then .x86_32 else .x86_64

def readNativeContext : Run k CpuContext := do
  let r ← getRegs
  let d0 ← attempt (readDr 0)
  let d1 ← attempt (readDr 1)
  let d2 ← attempt (readDr 2)
  let d3 ← attempt (readDr 3)
  let d6 ← attempt (readDr 6)
  let d7 ← attempt (readDr 7)
  let context : CpuContext :=
    { rax := r.rax, rbx := r.rbx, rcx := r.rcx, rdx := r.rdx
      rsi := r.rsi, rdi := r.rdi, rbp := r.rbp, rsp := r.rsp
      r8 := r.r8, r9 := r.r9, r10 := r.r10, r11 := r.r11
      r12 := r.r12, r13 := r.r13, r14 := r.r14, r15 := r.r15
      rip := r.rip, rflags := r.eflags
      cs := r.cs, ss := r.ss, ds := r.ds, es := r.es, fs := r.fs, gs := r.gs
      dr0 := 0, dr1 := 0, dr2 := 0, dr3 := 0, dr6 := 0, dr7 := 0
      architecture := architectureOf r
      debugRegistersValid := false }
  match d0, d1, d2, d3, d6, d7 with
  | .ok d0, .ok d1, .ok d2, .ok d3, .ok d6, .ok d7 =>
    pure { context with
      dr0 := d0, dr1 := d1, dr2 := d2, dr3 := d3, dr6 := d6, dr7 := d7
      debugRegistersValid := true }
  | _, _, _, _, _, _ => pure context

def CpuContext.over (c : CpuContext) (original : UserRegs) : UserRegs :=
  { original with
    rax := c.rax, rbx := c.rbx, rcx := c.rcx, rdx := c.rdx
    rsi := c.rsi, rdi := c.rdi, rbp := c.rbp, rsp := c.rsp
    r8 := c.r8, r9 := c.r9, r10 := c.r10, r11 := c.r11
    r12 := c.r12, r13 := c.r13, r14 := c.r14, r15 := c.r15
    rip := c.rip, eflags := c.rflags
    cs := c.cs, ss := c.ss, ds := c.ds, es := c.es, fs := c.fs, gs := c.gs }

def indices : List ℕ := [0, 1, 2, 3, 6, 7]

/-- `desired` -/
def CpuContext.desired (c : CpuContext) : List (ℕ × BitVec 64) :=
  [(0, c.dr0), (1, c.dr1), (2, c.dr2), (3, c.dr3), (6, c.dr6), (7, c.dr7)]

/-- The loop that reads `saved`. -/
def readAll : List ℕ → Run k (List (ℕ × BitVec 64))
  | [] => pure []
  | index :: rest => do
    let value ← readDr index
    let values ← readAll rest
    pure ((index, value) :: values)

/-- The loop that writes `desired`, each write followed by its check. -/
def writeVerified : List (ℕ × BitVec 64) → Run k Unit
  | [] => pure ()
  | (index, value) :: rest => do
    writeDr index value
    if ← verifyDr index value then writeVerified rest else throw .io

/-- `restored=writeDr(tid,indices[i],saved[i]).has_value() && restored` -/
def rewriteAll : List (ℕ × BitVec 64) → Bool → Run k Bool
  | [], restored => pure restored
  | (index, value) :: rest, restored => do
    let written ← succeeds (writeDr index value)
    rewriteAll rest (written && restored)

/-- `restored=verifyDr(tid,indices[i],saved[i]) && restored` -/
def verifyAll : List (ℕ × BitVec 64) → Bool → Run k Bool
  | [], restored => pure restored
  | (index, value) :: rest, restored => do
    let verified ← verifyDr index value
    verifyAll rest (verified && restored)

/-- `PTRACE_GETREGS` and the comparison with `original`. -/
def verifyRegs (original : UserRegs) (restored : Bool) : Run k Bool := do
  match ← attempt getRegs with
  | .ok observed => pure (decide (original = observed) && restored)
  | .error _ => pure false

/-- `restored ? error : brokenRestore()` -/
def failWith (restored : Bool) (error : Error) : Run k Unit :=
  if restored then throw error else throw .brokenRestore

/-- The debug registers are read where they are to be written. -/
def readSaved (c : CpuContext) : Run k (List (ℕ × BitVec 64)) :=
  if c.debugRegistersValid then readAll indices else pure []

/-- `PTRACE_SETREGS` can fail after it has written earlier registers. -/
def restoreRegs (original : UserRegs) (error : Error) : Run k Unit := do
  let restored ← succeeds (setRegs original)
  let restored ← verifyRegs original restored
  failWith restored error

def writeDesired (c : CpuContext) : Run k Unit := do
  writeDr 7 0
  writeVerified c.desired

/-- All registers are written back, and then all are read. -/
def restoreContext (original : UserRegs) (saved : List (ℕ × BitVec 64)) (error : Error) :
    Run k Unit := do
  let restored ← succeeds (writeDr 7 0)
  let restored ← rewriteAll saved restored
  let written ← succeeds (setRegs original)
  let restored ← verifyAll saved (written && restored)
  let restored ← verifyRegs original restored
  failWith restored error

def writeNativeContext (c : CpuContext) : Run k Unit := do
  let original ← getRegs
  let architecture := architectureOf original
  if c.architecture ≠ .unknown ∧ c.architecture ≠ architecture then throw .invalid
  else
    let saved ← readSaved c
    match ← attempt (setRegs (c.over original)) with
    | .error error => restoreRegs original error
    | .ok _ =>
      if c.debugRegistersValid then
        match ← attempt (writeDesired c) with
        | .ok _ => pure ()
        | .error error => restoreContext original saved error
      else pure ()

/-! ### The bank -/

/-- What `control` says of a slot. -/
def slotControl (control : BitVec 64) (slot : ℕ) : BitVec 32 :=
  (((control >>> (slot * 2)) &&& 3#64) |||
    (((control >>> (16 + slot * 4)) &&& 15#64) <<< 2)).setWidth 32

/-- The loop over the slots. -/
def readEntries (control : BitVec 64) : List ℕ → NativeHardwareBank → Run k NativeHardwareBank
  | [], bank => pure bank
  | slot :: rest, bank => do
    let address ← readDr slot
    readEntries control rest { bank with
      entries := Function.update bank.entries slot ⟨address, slotControl control slot⟩ }

/-- Both registers are read before their results are looked at. -/
def readNativeHardwareBank : Run k NativeHardwareBank := do
  let control ← attempt (readDr 7)
  let status ← attempt (readDr 6)
  match control, status with
  | .error error, _ => throw error
  | .ok _, .error error => throw error
  | .ok control, .ok status =>
    readEntries control [0, 1, 2, 3] { count := 4, control, status }

/-- Writes up to the first that fails. -/
def writeAll : List (ℕ × BitVec 64) → Run k Unit
  | [] => pure ()
  | (index, value) :: rest => do
    writeDr index value
    writeAll rest

/-- Checks up to the first that fails. -/
def requireAll : List (ℕ × BitVec 64) → Run k Unit
  | [] => pure ()
  | (index, value) :: rest => do
    if ← verifyDr index value then requireAll rest else throw .brokenRestore

def NativeHardwareBank.registers (saved : NativeHardwareBank) : List (ℕ × BitVec 64) :=
  [(0, (saved.entries 0).address), (1, (saved.entries 1).address), (2, (saved.entries 2).address),
    (3, (saved.entries 3).address), (6, saved.status), (7, saved.control)]

def restoreNativeHardwareBank (saved : NativeHardwareBank) : Run k Unit := do
  if saved.count ≠ 4 then throw .invalid
  else
    writeDr 7 0
    writeAll saved.registers
    requireAll saved.registers

/-! ### Slots -/

/-- `*oldControl & ~(UINT64_C(3)<<(slot*2))` -/
def disabled (control : BitVec 64) (slot : ℕ) : BitVec 64 :=
  control &&& ~~~(3#64 <<< (slot * 2))

def cleared (control : BitVec 64) (slot : ℕ) : BitVec 64 :=
  control &&& ~~~(3#64 <<< (slot * 2)) &&& ~~~(15#64 <<< (16 + slot * 4))

/-- `type` -/
def accessType : HardwareBreakpointAccess → BitVec 32
  | .execute => 0
  | .write => 1
  | .readWrite => 3
  | .other => 3

/-- `len` -/
def lengthBits (length : ℕ) : BitVec 32 :=
  if length = 1 then 0 else if length = 2 then 1 else if length = 4 then 3 else 2

/-- `control` -/
def enabled (control : BitVec 64) (slot : ℕ) (access : HardwareBreakpointAccess) (length : ℕ) :
    BitVec 64 :=
  cleared control slot ||| (1#64 <<< (slot * 2)) |||
    ((accessType access ||| (lengthBits length <<< 2)).setWidth 64 <<< (16 + slot * 4))

/-- The address and the control register, both read before the results are looked at. -/
def readSlot (slot : ℕ) : Run k (BitVec 64 × BitVec 64) := do
  let oldAddress ← attempt (readDr slot)
  let oldControl ← attempt (readDr 7)
  match oldAddress, oldControl with
  | .error error, _ => throw error
  | .ok _, .error error => throw error
  | .ok oldAddress, .ok oldControl => pure (oldAddress, oldControl)

/-- `verifyDr(tid,slot,…) && verifyDr(tid,7,…)` -/
def verifySlot (slot : ℕ) (address control : BitVec 64) : Run k Bool := do
  if ← verifyDr slot address then verifyDr 7 control else pure false

/-- The checks of the arguments; eight bytes are refused in a 32-bit thread. -/
def checkBreakpoint (slot : ℕ) (address : BitVec 64) (access : HardwareBreakpointAccess)
    (length : ℕ) : Run k Unit := do
  if access = .other then throw .invalid
  else if slot ≥ 4 ∨ (length ≠ 1 ∧ length ≠ 2 ∧ length ≠ 4 ∧ length ≠ 8) ∨
      address.toNat % length ≠ 0 ∨ (access = .execute ∧ length ≠ 1) then throw .invalid
  else if length = 8 then
    let context ← readNativeContext
    if context.architecture = .x86_32 then throw .invalid else pure ()
  else pure ()

def writeSlot (slot : ℕ) (address oldControl control : BitVec 64) : Run k Unit := do
  writeDr 7 (disabled oldControl slot)
  writeDr slot address
  writeDr 7 control
  if ← verifySlot slot address control then pure () else throw .io

def restoreSlot (slot : ℕ) (oldAddress oldControl : BitVec 64) (error : Error) : Run k Unit := do
  let restored ← succeeds (writeDr 7 (disabled oldControl slot))
  let restored ← rewriteAll [(slot, oldAddress), (7, oldControl)] restored
  let verified ← verifySlot slot oldAddress oldControl
  failWith (verified && restored) error

def setNativeHardwareBreakpoint (slot : ℕ) (address : BitVec 64)
    (access : HardwareBreakpointAccess) (length : ℕ) : Run k Unit := do
  checkBreakpoint slot address access length
  let (oldAddress, oldControl) ← readSlot slot
  match ← attempt (writeSlot slot address oldControl (enabled oldControl slot access length)) with
  | .ok _ => pure ()
  | .error error => restoreSlot slot oldAddress oldControl error

def removeNativeHardwareBreakpoint (slot : ℕ) : Run k Unit := do
  if slot ≥ 4 then throw .invalid
  else
    let control ← readDr 7
    writeDr 7 (cleared control slot)
    if ← verifyDr 7 (cleared control slot) then pure ()
    else if ← succeeds (writeDr 7 control) then
      let verified ← verifyDr 7 control
      failWith verified .io
    else throw .brokenRestore

end CheatEngine.TargetDebug
