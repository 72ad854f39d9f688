import CheatEngineLinux.Core.AutoAssembler
import CheatEngineLinux.Library.NearJump
import CheatEngineLinux.Library.Stops

/-!
# Hooks

`installSimpleHook` and `removeSimpleHook` (`src/core/simple_hook.cpp`): a jump is written over the
code at an address, to a cave that goes on to the new target and keeps the code that was there.
The calls on the target take their replies from outside.

* `installSimpleHook`, `removeSimpleHook`: the code.
* `Session`: hooks are installed and removed, in any order.
-/

namespace CheatEngine.SimpleHooks

open AutoAssembler ByteOverlay RecordFile NearJump Stages Stops

/-! ### The code -/

inductive CpuArchitecture
  | x86_32
  | x86_64
  | other
  deriving DecidableEq

def CpuArchitecture.isX86 : CpuArchitecture → Bool
  | .other => false
  | _ => true

structure Instruction where
  size : ℕ
  mnemonic : String
  /-- `memory.ripRelative` -/
  ripRelative : Bool
  ripTarget : ℕ

/-- What the host knows of the target's code. -/
structure Host where
  /-- `unsupportedTargetOperation(proc, TargetFeature::CodeInjection)` -/
  unsupported : Bool
  machineAt : UInt64 → CpuArchitecture
  /-- `Disassembler::disassemble` -/
  disassemble : CpuArchitecture → UInt64 → List UInt8 → List Instruction

structure ProtectionRange where
  address : ℕ
  size : ℕ
  protection : MemProt

structure SimpleHook where
  address : ℕ
  trampoline : ℕ := 0
  codecave : ℕ := 0
  original : List UInt8
  patchLen : ℕ
  protections : List ProtectionRange
  installed : List UInt8
  image : Option Image
  /-- `removal->complete` -/
  removal : Option Bool

def operation (mnemonic : String) : List Char :=
  (mnemonic.toList.reverse.takeWhile (· != ' ')).reverse

def isPositionDependent (i : Instruction) : Bool :=
  let m := operation i.mnemonic
  i.ripRelative || i.ripTarget != 0 || m == "call".toList || "loop".toList.isPrefixOf m ||
    m == "jcxz".toList || m == "jecxz".toList || m == "jrcxz".toList || m == "xbegin".toList ||
    m.head? == some 'j'

/-- Whole instructions up to 5 bytes or more, none of which depends on its position. -/
def displacedLength : List Instruction → ℕ → Option ℕ
  | [], patchLen => some patchLen
  | i :: rest, patchLen =>
    if isPositionDependent i then none
    else if patchLen + i.size ≥ 5 then some (patchLen + i.size)
    else displacedLength rest (patchLen + i.size)

/-- `target - (address + 5)` -/
def relTo (target address : ℕ) : ℕ := (target + 2 ^ 64 - (address + 5) % 2 ^ 64) % 2 ^ 64

/-- `putRelJmp` and `putAbsJmp`, as the target's code needs. -/
def putJmp (code32 : Bool) (address target : ℕ) : List UInt8 :=
  if code32 then relJump (relTo target address) else absJump target

/-- Regions after one another; at most one turn for each byte. -/
def protectionsFor : ℕ → ℕ → ℕ → Op (Option (List ProtectionRange))
  | _, _, 0 => pure (some [])
  | 0, _, _ + 1 => pure none
  | turns + 1, address, size + 1 => do
    let region ← queryRegion address
    match region with
    | none => return none
    | some region =>
      if address < region.base ∨ address - region.base ≥ region.size then return none
      else do
        let n := min (size + 1) (region.size - (address - region.base))
        let rest ← protectionsFor turns (address + n) (size + 1 - n)
        return rest.map (⟨address, n, region.protection⟩ :: ·)

def setProtections (writable : Bool) : List ProtectionRange → Op Bool
  | [] => pure true
  | range :: rest => do
    let protection := if writable then { range.protection with write := true } else range.protection
    let answer ← protect range.address range.size protection
    let ok ← setProtections writable rest
    return answer.toOption.isSome && ok

/-- `matches` -/
def hookMatches (hook : SimpleHook) (wanted : List UInt8) : Op Bool := do
  match ← read hook.address wanted.length with
  | .error _ => return false
  | .ok actual => return decide (actual.length = wanted.length) && decide (actual = wanted)

def writeAll (address : ℕ) (bytes : List UInt8) : Op Bool := do
  match ← write address bytes with
  | .error _ => return false
  | .ok n => return decide (n = bytes.length)

/-- A call that ends in a hook, or in nothing. -/
abbrev Attempt (α : Type) := Program Unit Target α

def refuse {α : Type} : Attempt α := throw ()

/-- `pinNativeMemoryImage` -/
def pinImage : Attempt (Option Image) := do
  let t ← get
  match ← call pin with
  | .error _ => refuse
  | .ok _ => pure t.image

/-- What is known of the code before anything changes. -/
def inspect (host : Host) (architecture : CpuArchitecture) (address : UInt64) :
    Attempt SimpleHook := do
  let image ← pinImage
  match ← call (read address.toNat 32) with
  | .error _ => refuse
  | .ok code =>
    if code.length < 5 then refuse
    else match displacedLength (host.disassemble architecture address code) 0 with
    | none => refuse
    | some patchLen =>
      if patchLen < 5 then refuse
      else if patchLen > 2 ^ 64 - 1 - address.toNat then refuse
      else do
        let protections ← call (protectionsFor patchLen address.toNat patchLen)
        match protections with
        | none | some [] => refuse
        | some protections => pure {
            address := address.toNat, original := code.take patchLen, patchLen := patchLen,
            protections := protections, installed := List.replicate patchLen 0x90, image := image,
            removal := some false }

/-- `freeCave()`, and nothing is returned. -/
def giveUp {α : Type} (hook : SimpleHook) : Attempt α := do
  let _ ← call (free hook.codecave (64 + hook.patchLen))
  refuse

/-- The cave that a jump from the code reaches. -/
def reserve (code32 : Bool) (hook : SimpleHook) : Attempt SimpleHook := do
  match ← call (allocate (64 + hook.patchLen)) with
  | .error _ => refuse
  | .ok cave =>
    let hook := { hook with codecave := cave }
    if 64 + hook.patchLen > 2 ^ 64 - 1 - cave ∨
        code32 = true ∧ cave > 2 ^ 32 - 1 - (64 + hook.patchLen) then giveUp hook
    else
      let rel := relTo cave hook.address
      if code32 = false ∧ rel > 2 ^ 31 - 1 ∧ rel < 2 ^ 64 - 1 - (2 ^ 31 - 1) then giveUp hook
      else pure { hook with trampoline := cave + 16 }

/-- The gate, and the displaced code with a jump back. -/
def fillCave (code32 : Bool) (target : ℕ) (hook : SimpleHook) : Attempt Unit := do
  let gate := putJmp code32 hook.codecave target
  let tramp := hook.original ++
    putJmp code32 (hook.trampoline + hook.patchLen) (hook.address + hook.patchLen)
  if ← call (writeAll hook.codecave gate) then
    if ← call (writeAll hook.trampoline tramp) then pure () else giveUp hook
  else giveUp hook

/-- `jmp rel32` to the cave, and `nop` up to the end. -/
def hookPatch (address cave patchLen : ℕ) : List UInt8 :=
  relJump (relTo cave address) ++ List.replicate (patchLen - 5) 0x90

/-- The code may hold the jump: the cave goes only if it does not. -/
def recover {α : Type} (hook : SimpleHook) : Attempt α := do
  match hook.image with
  | some _ =>
    if ← call (hookMatches hook hook.original) then giveUp hook else refuse
  | none =>
    let restored ← call (writeAll hook.address hook.original)
    let _ ← call (setProtections false hook.protections)
    if restored then
      if ← call (hookMatches hook hook.original) then giveUp hook else refuse
    else refuse

def patchCode (hook : SimpleHook) : Attempt SimpleHook := do
  let patch := hookPatch hook.address hook.codecave hook.patchLen
  let hook := { hook with installed := patch }
  let writable ← call
    (if hook.image.isNone then setProtections true hook.protections else pure true)
  if writable = false then do
    let _ ← call (setProtections false hook.protections)
    giveUp hook
  else do
    let written ← call (writeAll hook.address patch)
    let inPlace ← call (if written then hookMatches hook patch else pure false)
    if inPlace then do
      let _ ← call (if hook.image.isNone then setProtections false hook.protections else pure true)
      pure hook
    else recover hook

def installSimpleHook (host : Host) (address target : UInt64) : Attempt SimpleHook := do
  let architecture := host.machineAt address
  let code32 := architecture == .x86_32
  if host.unsupported then refuse
  else if !architecture.isX86 || architecture != host.machineAt target then refuse
  else if code32 && (decide (address.toNat > 2 ^ 32 - 1) || decide (target.toNat > 2 ^ 32 - 1)) then
    refuse
  else do
    let hook ← inspect host architecture address
    let hook ← reserve code32 hook
    fillCave code32 target.toNat hook
    patchCode hook

/-- The code holds nothing but bytes of before and bytes of the jump. -/
def ownCode (hook : SimpleHook) : Op Bool := do
  if hook.installed.isEmpty then return true
  else match ← read hook.address hook.original.length with
    | .error _ => return false
    | .ok actual =>
      return decide (actual.length = hook.original.length) &&
        decide (hook.installed.length = hook.original.length) &&
        (actual.zip (hook.original.zip hook.installed)).all fun b =>
          b.1 == b.2.1 || b.1 == b.2.2

/-- The displaced code is written back, unless it is there already. -/
def restoreImage (hook : SimpleHook) : Op Bool := do
  if ← hookMatches hook hook.original then return true
  else if ← writeAll hook.address hook.original then hookMatches hook hook.original
  else return false

def restoreRanges (hook : SimpleHook) : Op Bool := do
  let found ← (if hook.protections.isEmpty then
      protectionsFor hook.original.length hook.address hook.original.length
    else pure (some hook.protections))
  let ranges := found.getD []
  let writable ← (if ranges.isEmpty then pure false else setProtections true ranges)
  if !writable then do
    let _ ← setProtections false ranges
    return false
  else do
    let restored ← writeAll hook.address hook.original
    let inPlace ← (if restored then hookMatches hook hook.original else pure false)
    let closed ← setProtections false ranges
    return closed && inPlace

/-- Whether the image that the hook is in is still the target's. -/
inductive Standing
  | live
  | retired
  | unknown
  deriving DecidableEq

def standing (hook : SimpleHook) (t : Target) : Standing :=
  match hook.image with
  | none => .live
  | some image =>
    if image.pid ≠ t.pid then .unknown
    else match t.check image with
      | .live => .live
      | .retired => .retired
      | .unknown _ => .unknown

def SimpleHook.complete (hook : SimpleHook) : SimpleHook :=
  { hook with removal := hook.removal.map fun _ => true }

/-- The hook comes back with the flag that its copies share.  The cave stays. -/
def removeSimpleHook (hook : SimpleHook) : Op (Bool × SimpleHook) := do
  if hook.original.isEmpty then return (false, hook)
  else do
    let locked ← (if hook.removal.isSome then tryLock else pure true)
    if !locked then return (false, hook)
    else if hook.removal = some true then return (true, hook)
    else do
      let t ← get
      match standing hook t with
      | .unknown => return (false, hook)
      | .retired => return (true, hook.complete)
      | .live =>
        if ← ownCode hook then do
          let ok ← (if hook.image.isSome then restoreImage hook else restoreRanges hook)
          return (ok, if ok then hook.complete else hook)
        else return (false, hook)

/-! ### Hooks of a session -/

inductive Request
  | install (address target : UInt64)
  /-- The place of the hook in the order of installation. -/
  | remove (hook : ℕ)

structure Session where
  target : Target
  hooks : List SimpleHook

def Session.serve (host : Host) (s : Session) : Request → Session
  | .install address target =>
    match finish (installSimpleHook host address target) s.target with
    | (.ok hook, t) => ⟨t, s.hooks ++ [hook]⟩
    | (.error _, t) => ⟨t, s.hooks⟩
  | .remove i =>
    match s.hooks[i]? with
    | none => s
    | some hook =>
      let answer := removeSimpleHook hook s.target
      ⟨answer.2, s.hooks.set i answer.1.2⟩

def Session.run (host : Host) (s : Session) (requests : List Request) : Session :=
  requests.foldl (Session.serve host) s

end CheatEngine.SimpleHooks
