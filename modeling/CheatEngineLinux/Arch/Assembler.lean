import CheatEngineLinux.Arch.Disassembler
import CheatEngineLinux.Core.PathExpression
import CheatEngineLinux.Library.RelativeBranch

/-!
# Assembling a block of code

`Assembler::assembleEx` (`src/arch/assembler.cpp`) rewrites a block for Keystone, keeps the numeric
destinations of its memory operands, and corrects or refuses what Keystone made of them.

* `stripPtrKeyword`, `normalizeCeNumbers`: the text that Keystone gets.
* `nearJump`: `jmp near`, which Keystone is not asked for.
* `scanStatement`: the destination of the memory operand of a statement.
* `fixBlock`: the memory operands of what Keystone made.
* `verifyBranch`: the branch that Keystone made.
* `assembleEx`: all of it, for what Keystone answers.

* **PROVED `joined_splitStatements`**: the statements of a text make it up.
-/

namespace CheatEngine.Assembler

open JsonGrammar (Bytes)
open CtFile (lit readDigits uint64Max hexText)
open Expression (toLower isDigit isXDigit trim ExpressionParser)
open Disassembler (Capstone Instruction)
open RecordFile (leBytes)

inductive AsmArch
  | x86_32 | x86_64 | arm32 | arm64 | armThumb | arm32BE | armThumbBE
  deriving Repr, DecidableEq

def AsmArch.isX86 (arch : AsmArch) : Bool := arch == .x86_32 || arch == .x86_64

def lower (s : Bytes) : Bytes := s.map toLower

/-! ### The keyword of sizes -/

def isWord (c : UInt8) : Bool := isAlnum c || c == 0x5f

/-- Whether the word `ptr` stands at the start of a text. -/
def ptrHere (s : Bytes) : Bool := lower (s.take 3) == lit "ptr" && !(s.drop 3).head?.any isWord

/-- The loop of `stripPtrKeyword`, with the character before, and how much is still dropped. -/
def stripPtrLoop : Option UInt8 → ℕ → Bytes → Bytes
  | _, _, [] => []
  | _, skip + 1, c :: rest => stripPtrLoop (some c) skip rest
  | before, 0, c :: rest =>
    if !before.any isWord && ptrHere (c :: rest) then
      -- the word, and one space after it
      stripPtrLoop (some c) (if (rest.drop 2).head? == some 0x20 then 3 else 2) rest
    else c :: stripPtrLoop (some c) 0 rest

def stripPtrKeyword (s : Bytes) : Bytes := stripPtrLoop none 0 s

/-! ### Statements -/

def isSeparator (c : UInt8) : Bool := c == 0x3b || c == 0x0a

def splitStatements : Bytes → List (Bytes × Option UInt8)
  | [] => [([], none)]
  | c :: rest =>
    if isSeparator c then ([], some c) :: splitStatements rest
    else
      match splitStatements rest with
      | [] => [([c], none)]
      | (statement, stop) :: more => (c :: statement, stop) :: more

def joined (statements : List (Bytes × Option UInt8)) : Bytes :=
  statements.flatMap fun s => s.1 ++ s.2.toList

theorem joined_splitStatements (s : Bytes) : joined (splitStatements s) = s := by
  induction s with
  | nil => rfl
  | cons c rest ih =>
    rw [splitStatements]
    split
    · rw [joined, List.flatMap_cons, ← joined, ih]
      rfl
    · split
      · rename_i hnil
        rw [hnil] at ih
        rw [← ih]
        rfl
      · rename_i statement stop more hcons
        rw [hcons, joined, List.flatMap_cons] at ih
        rw [joined, List.flatMap_cons, List.cons_append, List.cons_append, ih]

/-! ### Numbers -/

def isIdent (c : UInt8) : Bool := isAlnum c || c == 0x5f || c == 0x2e || c == 0x40 || c == 0x3f

def isAlpha (c : UInt8) : Bool := isAlnum c && !isDigit c

def allHex (s : Bytes) : Bool := !s.isEmpty && s.all isXDigit

def labelsOf : ℕ → Bytes → List Bytes
  | 0, _ => []
  | fuel + 1, s =>
    let word := (s.dropWhile CtFile.isSpace).takeWhile isIdent
    match (s.dropWhile CtFile.isSpace).drop word.length with
    | 0x3a :: rest => if word.isEmpty then [] else lower word :: labelsOf fuel rest
    | _ => []

def labels (s : Bytes) : List Bytes :=
  (splitStatements s).flatMap fun statement => labelsOf (statement.1.length + 1) statement.1

/-- `prefixes` -/
def instructionPrefixes : List Bytes :=
  ["lock", "rep", "repe", "repz", "repne", "repnz", "bnd", "notrack", "xacquire",
    "xrelease"].map lit

def afterMnemonic : ℕ → Bytes → Bytes
  | 0, s => s
  | fuel + 1, s =>
    let here := s.dropWhile CtFile.isSpace
    let word := here.takeWhile isIdent
    let rest := here.drop word.length
    if word.isEmpty then here
    else if rest.head? == some 0x3a then afterMnemonic fuel rest.tail
    else if instructionPrefixes.contains (lower word) then afterMnemonic fuel rest
    else rest

/-- A token of an operand, as Keystone reads it. -/
def rewriteToken (known : List Bytes) (token : Bytes) : Bytes :=
  match token with
  | [] => []
  | c :: digits =>
    if !digits.isEmpty && c == 0x23 && digits.all isDigit then
      if readDigits 10 digits ≤ uint64Max then hexText (UInt64.ofNat (readDigits 10 digits))
      else token
    else if !digits.isEmpty && c == 0x24 && allHex digits then lit "0x" ++ digits
    else if allHex token && token.any isAlpha && !known.contains (lower token) then
      lit "0x" ++ token
    else token

/-- The operands of a statement, with the character before. -/
def rewriteOperands (known : List Bytes) : ℕ → Option UInt8 → Bytes → Bytes
  | 0, _, s => s
  | _, _, [] => []
  | fuel + 1, before, c :: rest =>
    if c == 0x22 || c == 0x27 then
      let inside := rest.takeWhile (· != c)
      -- without a closing quote everything that is left
      let taken := rest.take (inside.length + 1)
      c :: taken ++ rewriteOperands known fuel (some c) (rest.drop (inside.length + 1))
    else if before.any isIdent || !(isIdent c || c == 0x23 || c == 0x24) then
      c :: rewriteOperands known fuel (some c) rest
    else
      let token := c :: rest.takeWhile isIdent
      rewriteToken known token ++
        rewriteOperands known fuel token.getLast? (rest.drop (token.length - 1))

def rewriteStatement (known : List Bytes) (statement : Bytes) : Bytes :=
  let rest := afterMnemonic (statement.length + 1) statement
  let head := statement.take (statement.length - rest.length)
  head ++ rewriteOperands known rest.length head.getLast? rest

def normalizeCeNumbers (s : Bytes) : Bytes :=
  joined ((splitStatements s).map fun statement =>
    (rewriteStatement (labels s) statement.1, statement.2))

/-- `normalized` -/
def normalize (arch : AsmArch) (code : Bytes) : Bytes :=
  if arch.isX86 then normalizeCeNumbers (stripPtrKeyword code) else stripPtrKeyword code

/-! ### `jmp near` -/

/-- `ExpressionParser()`, which knows no process and no symbols. -/
def number (text : Bytes) : Option UInt64 :=
  Expression.parse { proc := none, lookup := fun _ => 0 } text

/-- The displacement from the end of an instruction, in the range of 32 bits with a sign. -/
def nearBits (target next : UInt64) : Option UInt32 :=
  if next ≤ target then
    if target - next ≤ 0x7fffffff then some (target - next).toUInt32 else none
  else
    if next - target ≤ 0x80000000 then some (0 - (next - target)).toUInt32 else none

def isNearJump (arch : AsmArch) (normalized : Bytes) : Bool :=
  arch.isX86 && lower (normalized.take 9) == lit "jmp near "

def nearJump (arch : AsmArch) (address : UInt64) (destination : Bytes) : Except Bytes Bytes :=
  match number destination with
  | none => .error (lit "Unresolved near jump destination")
  | some target =>
    if address > 0xffffffffffffffff - 5 then .error (lit "Unresolved near jump destination")
    else
      let next := address + 5
      if arch = .x86_32 then
        if target > 0xffffffff ∨ next > 0x100000000 then
          .error (lit "Near jump exceeds the 32-bit address space")
        else .ok (0xe9 :: leBytes 4 (target.toUInt32 - next.toUInt32).toNat)
      else
        match nearBits target next with
        | none => .error (lit "Near jump destination is outside the 2 GiB range")
        | some bits => .ok (0xe9 :: leBytes 4 bits.toNat)

/-! ### The destinations of memory operands -/

def afterLabels : ℕ → Bytes → Bytes
  | 0, s => s
  | fuel + 1, s =>
    let here := s.dropWhile fun c => c == 0x20 || c == 0x09 || c == 0x0d
    if (here.takeWhile fun c => !(c == 0x20 || c == 0x09 || c == 0x5b)).contains 0x3a then
      afterLabels fuel ((here.dropWhile (· != 0x3a)).drop 1)
    else here

def afterBracket (s : Bytes) : Bytes := (s.dropWhile (· != 0x5b)).drop 1

/-- What stands in the brackets. -/
def operandText (s : Bytes) : Option Bytes :=
  if s.contains 0x5b && (afterBracket s).contains 0x5d then
    some ((afterBracket s).takeWhile (· != 0x5d))
  else none

/-- `relative` and `absolute`, of an expression without blanks around it. -/
def hasKeyword (keyword : String) (expression : Bytes) : Bool :=
  lower (expression.take 3) == lit keyword && (expression.drop 3).head?.any CtFile.isSpace

/-- `target`, of what stands in the brackets. -/
def memoryTarget (inside : Bytes) : Option UInt64 :=
  let expression := trim inside
  let keyed := hasKeyword "rel" expression || hasKeyword "abs" expression
  let expression := if keyed then expression.drop 4 else expression
  -- a decimal number of NASM is no number of an expression
  let decimal := !expression.isEmpty && expression.all isDigit
  if keyed || decimal || expression.take 2 == lit "0x" || expression.take 2 == lit "0X" then
    number (if decimal && !keyed then 0x23 :: expression else expression)
  else none

/-- A statement for Keystone and, where it is an instruction, its destination. -/
def scanStatement (statement : Bytes) : Except Bytes (Bytes × List (Option UInt64)) :=
  let rest := afterLabels (statement.length + 1) statement
  if rest.isEmpty then .ok (statement, [])
  else
    match operandText rest with
    | none => .ok (statement, [none])
    | some inside =>
      let relative := hasKeyword "rel" (trim inside)
      let target := memoryTarget inside
      if (relative || hasKeyword "abs" (trim inside)) && target.isNone then
        .error (lit "Unresolved memory destination")
      else if relative then
        let behind := afterBracket rest
        .ok (statement.take (statement.length - behind.length) ++ lit "rip+0" ++
          behind.dropWhile (· != 0x5d), [target])
      else .ok (statement, [target])

/-- `memoryTargets`, and the text for Keystone. -/
def scanStatements : List (Bytes × Option UInt8) → Except Bytes (Bytes × List (Option UInt64))
  | [] => .ok ([], [])
  | (statement, stop) :: more => do
    let here ← scanStatement statement
    let rest ← scanStatements more
    return (here.1 ++ stop.toList ++ rest.1, here.2 ++ rest.2)

def memoryTargets (arch : AsmArch) (normalized : Bytes) :
    Except Bytes (Bytes × List (Option UInt64)) :=
  if arch = .x86_64 then scanStatements (splitStatements normalized) else .ok (normalized, [])

/-! ### What Keystone made -/

/-- `ks_asm`: the bytes of a block at an address and its number of statements, or what
`ks_strerror` says. -/
abbrev Keystone := Bytes → UInt64 → Except Bytes (Bytes × ℕ)

/-- `dispOffset`, `dispSize` and `memory.segmentReg` of an instruction. -/
structure Encoding where
  dispOffset : ℕ
  dispSize : ℕ
  segmentReg : Bytes
  deriving Repr, DecidableEq

section Checks

variable (cs : Capstone) (enc : Instruction → Encoding) (address : UInt64)

def putBits (result : Bytes) (offset : ℕ) (bits : UInt32) : Bytes :=
  result.take offset ++ leBytes 4 bits.toNat ++ result.drop (offset + 4)

/-- One turn of the loop over the instructions. -/
def fixOperand (result : Bytes) (inst : Instruction) : Option UInt64 → Except Bytes Bytes
  | none => .ok result
  | some target =>
    if !inst.memory.ripRelative then
      if !inst.memory.present || inst.memory.disp != target.toInt64.toInt then
        .error (lit "Absolute memory destination cannot be represented by this instruction")
      else .ok result
    else if (enc inst).dispSize != 4 || inst.bytes.length < (enc inst).dispOffset + 4 then
      .error (lit "Cannot encode this relative memory operand")
    else
      match nearBits target (inst.address + UInt64.ofNat inst.size) with
      | none => .error (lit "Relative memory destination is outside the 2 GiB range")
      | some bits =>
        .ok (putBits result ((inst.address - address).toNat + (enc inst).dispOffset) bits)

def fixOperands : Bytes → List (Instruction × Option UInt64) → Except Bytes Bytes
  | result, [] => .ok result
  | result, (inst, target) :: more =>
    (fixOperand enc address result inst target).bind fun fixed => fixOperands fixed more

def lastEnd : List Instruction → Option UInt64
  | instructions => instructions.getLast?.map fun last => last.address + UInt64.ofNat last.size

def fixBlock (encoded : Bytes) (targets : List (Option UInt64)) : Except Bytes Bytes :=
  if encoded.length > 2 ^ 64 - 1 - address.toNat then
    .error (lit "Assembly range exceeds the address space")
  else
    let instructions := Disassembler.disassemble cs .x86_64 address encoded 0 false
    if instructions.length ≠ targets.length ∨
        lastEnd instructions ≠ some (address + UInt64.ofNat encoded.length) then
      .error (lit "Cannot verify memory destinations in this assembly block")
    else fixOperands enc address encoded (instructions.zip targets)

/-- The mnemonic of a statement and what follows the blank after it. -/
def splitMnemonic (text : Bytes) : Option (Bytes × Bytes) :=
  let statement := text.dropWhile CtFile.isSpace
  let word := statement.takeWhile fun c => !(c == 0x20 || c == 0x09)
  if word.length < statement.length then some (lower word, statement.drop (word.length + 1))
  else none

/-- `branch` -/
def isBranch (mnemonic : Bytes) : Bool :=
  mnemonic == lit "jmp" || mnemonic == lit "call" ||
    (2 ≤ mnemonic.length && mnemonic.head? == some 0x6a)

/-- `rel`, where its encoding is all of the bytes. -/
def encodedBranch (b : Bytes) : Option ℤ :=
  let op := b.headD 0
  if RelativeBranch.nearOpcode op && 5 ≤ b.length then
    if b.length = 5 then some (RelativeBranch.signed (b.drop 1)) else none
  else if RelativeBranch.shortOpcode op && 2 ≤ b.length then
    if b.length = 2 then some (RelativeBranch.signed (b.drop 1)) else none
  else if op == 0x0f && 6 ≤ b.length && RelativeBranch.condOpcode (b.getD 1 0) then
    if b.length = 6 then some (RelativeBranch.signed (b.drop 2)) else none
  else none

/-- Low bits that count, of an address. -/
def codeAddress (arch : AsmArch) (a : UInt64) : UInt64 :=
  if arch = .x86_32 then a &&& 0xffffffff else a

def verifyBranch (arch : AsmArch) (text result : Bytes) : Except Bytes Unit :=
  match splitMnemonic text with
  | none => .ok ()
  | some (mnemonic, destination) =>
    if isBranch mnemonic then
      match number destination, encodedBranch result with
      | some target, some rel =>
        let landed := address + UInt64.ofNat result.length + UInt64.ofInt rel
        if codeAddress arch landed ≠ codeAddress arch target then
          .error (lit "Branch destination is out of reach of a relative " ++ mnemonic ++
            lit " from this address (more than 2 GiB away)")
        else .ok ()
      | _, _ => .ok ()
    else .ok ()

/-- The bytes with their memory operands corrected, where there are any. -/
def fixed (encoded : Bytes) (targets : List (Option UInt64)) : Except Bytes Bytes :=
  if targets.any Option.isSome then fixBlock cs enc address encoded targets else .ok encoded

/-- The bytes and `statementsOut`, where the branch is as it was written. -/
def verified (arch : AsmArch) (text result : Bytes) (count : ℕ) : Except Bytes (Bytes × ℕ) :=
  if arch.isX86 && count == 1 && !result.isEmpty then
    (verifyBranch address arch text result).map fun _ => (result, count)
  else .ok (result, count)

/-- A character of `hasContent`. -/
def isContent (c : UInt8) : Bool := !(c == 0x20 || c == 0x09 || c == 0x0d || c == 0x0a)

/-- `Assembler::assembleEx`: the bytes and `statementsOut`. -/
def assembleEx (arch : AsmArch) (ks : Keystone) (code : Bytes) : Except Bytes (Bytes × ℕ) :=
  let normalized := normalize arch code
  if isNearJump arch normalized then
    (nearJump arch address (normalized.drop 9)).map fun bytes => (bytes, 1)
  else do
    let (text, targets) ← memoryTargets arch normalized
    let (encoded, count) ← (ks text address).mapError (lit "Assembly error: " ++ ·)
    if encoded.isEmpty && code.any isContent then
      throw (lit "Assembly produced no output (unsupported or invalid syntax)")
    let result ← fixed cs enc address encoded targets
    verified address arch text result count

end Checks

end CheatEngine.Assembler
