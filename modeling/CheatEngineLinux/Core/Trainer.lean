import CheatEngineLinux.Core.TypedCompare
import CheatEngineLinux.Scanner.GroupedParse

/-!
# Trainers

`src/core/trainer.cpp`: which records of a table a trainer writes, and the C code that freezes one.

* `trainerWritable`, `fallbackKey`.
* `FreezeBody`: the code that freezes a record, with its text.
* `freezeBody`, `freezeWriteBody`: the code for a record, if there is any.
* `FreezeBody.writes`: what the code does.

A literal of the code is one that the generator prints itself, and what it stands for is known with
it.  What a floating-point literal stands for is left out.
-/

namespace CheatEngine.Trainer

open CtFile (CheatEntry FreezeMode lit digitsText)
open JsonGrammar (Bytes)
open RecordFile

def asText (s : Bytes) : List Char := s.map fun c => Char.ofNat c.toNat

def asBytes (t : List Char) : Bytes := t.map fun c => UInt8.ofNat c.toNat

/-- `c == ' ' || c == '\t'` -/
def isBlank (c : UInt8) : Bool := c == 0x20 || c == 0x09

/-- `std::isxdigit` -/
def isXDigit (c : UInt8) : Bool := decide (CtFile.charDigit c < 16)

/-- `trainerWritable`: a record at an address that is a plain number. -/
def trainerWritable (e : CheatEntry) : Bool :=
  if e.isGroup || e.address == 0 || !e.offsets.isEmpty then false
  else
    let text := Slices.trim isBlank e.addressString
    let text := if text.take 2 = lit "0x" ∨ text.take 2 = lit "0X" then text.drop 2 else text
    text.all isXDigit

/-- `fallbackKey`: `'1'` to `'9'`, then none. -/
def fallbackKey (index : ℕ) : ℤ := if index < 9 then 0x31 + index else -1

/-! ### The code -/

inductive CType
  | uint8 | int16 | int32 | uint32 | int64 | float | double
  deriving Repr, DecidableEq

def CType.text : CType → Bytes
  | .uint8 => lit "uint8_t"
  | .int16 => lit "int16_t"
  | .int32 => lit "int32_t"
  | .uint32 => lit "uint32_t"
  | .int64 => lit "int64_t"
  | .float => lit "float"
  | .double => lit "double"

def CType.isSigned : CType → Bool
  | .uint8 | .uint32 => false
  | _ => true

inductive Literal
  | unsigned (n : ℕ)
  | int (v : ℤ)
  | longLong (v : ℤ)
  | floating (text : Bytes)
  deriving Repr, DecidableEq

def Literal.text : Literal → Bytes
  | .unsigned n => digitsText 10 n ++ lit "u"
  | .int v => CtFile.intText v
  | .longLong v =>
    if v = -2 ^ 63 then lit "(-9223372036854775807LL - 1)" else CtFile.intText v ++ lit "LL"
  | .floating text => text

def Literal.value : Literal → Option ℤ
  | .unsigned n => some n
  | .int v => some v
  | .longLong v => some v
  | .floating _ => none

/-- How the variable `v` is written: as it is, with its bytes reversed, or if the value in the
target is below it (`floor`) or above it. -/
inductive Store
  | plain
  | reversed
  | guarded (floor : Bool)
  deriving Repr, DecidableEq

/-- The code that freezes a record. -/
structure FreezeBody where
  ctype : CType
  literal : Literal
  width : ℕ
  address : UInt64
  store : Store
  deriving DecidableEq

/-- `(void*)0x%llx` -/
def addressText (address : UInt64) : Bytes := lit "(void*)" ++ CtFile.hexText address

def FreezeBody.text (b : FreezeBody) : Bytes :=
  let width := digitsText 10 b.width
  let last := digitsText 10 (b.width - 1)
  b.ctype.text ++ lit " v = " ++ b.literal.text ++ lit ";" ++
    match b.store with
    | .plain => lit " wpm(" ++ addressText b.address ++ lit ", &v, " ++ width ++ lit ");"
    | .reversed => lit " unsigned char b[" ++ width ++ lit "]; memcpy(b, &v, " ++ width ++
        lit ");" ++ lit " for (int i = 0; i < " ++ digitsText 10 (b.width / 2) ++
        lit "; ++i) \x7b unsigned char t = b[i]; b[i] = b[" ++ last ++ lit " - i]; b[" ++ last ++
        lit " - i] = t; \x7d" ++ lit " wpm(" ++ addressText b.address ++ lit ", b, " ++ width ++
        lit ");"
    | .guarded floor => lit " " ++ b.ctype.text ++ lit " cur; if (rpm(" ++ addressText b.address ++
        lit ", &cur, " ++ width ++ lit ") && cur " ++ (if floor then lit "<" else lit ">") ++
        lit " v) wpm(" ++ addressText b.address ++ lit ", &v, " ++ width ++ lit ");"

/-! ### The generator -/

/-- `fullySigned` -/
def fullySigned (value : Bytes) : Option ℤ :=
  if value.isEmpty then none
  else
    match Grouped.strtoll (Grouped.cString value) with
    | some (v, []) => some v
    | _ => none

/-- `inRange` -/
def inRange (low high v : ℤ) : Bool := decide (low ≤ v) && decide (v ≤ high)

/-- The text of a floating-point value with a point for a comma. -/
def normalized (value : Bytes) : List Char :=
  asText (value.map fun c => if c = 0x2c then 0x2e else c)

def floatLiteral (conv : ValueIo.Converters) (value : Bytes) : Option Literal :=
  if value.isEmpty then none
  else do
    let bits ← conv.float (normalized value)
    -- `std::isfinite`
    if (bits >>> 23) &&& 0xff = 0xff then none
    else
      let text := asBytes (conv.floatText bits)
      let text := if text.any fun c => c == 0x2e || c == 0x65 || c == 0x45 then text
        else text ++ lit ".0"
      some (.floating (text ++ lit "f"))

def doubleLiteral (conv : ValueIo.Converters) (value : Bytes) : Option Literal :=
  if value.isEmpty then none
  else do
    let bits ← conv.double (normalized value)
    -- `std::isfinite`
    if (bits >>> 52) &&& 0x7ff = 0x7ff then none
    else some (.floating (asBytes (conv.doubleText bits)))

/-- The type, the literal and the width for a record. -/
def freezeScalar (conv : ValueIo.Converters) (e : CheatEntry) : Option (CType × Literal × ℕ) :=
  match e.type with
  | .byte => do
    let v ← fullySigned e.value
    if inRange (-128) 255 v then some (.uint8, .unsigned (v % 2 ^ 8).toNat, 1) else none
  | .int16 => do
    let v ← fullySigned e.value
    if inRange (-32768) 65535 v then some (.int16, .int (v.bmod (2 ^ 16)), 2) else none
  | .int32 => do
    let v ← fullySigned e.value
    if inRange (-2 ^ 31) (2 ^ 32 - 1) v then some (.int32, .int (v.bmod (2 ^ 32)), 4) else none
  | .int64 => do
    let v ← fullySigned e.value
    some (.int64, .longLong v, 8)
  | .pointer => do
    let v ← fullySigned e.value
    if e.pointerWidth = 4 then
      if inRange (-2 ^ 31) (2 ^ 32 - 1) v then some (.uint32, .unsigned (v % 2 ^ 32).toNat, 4)
      else none
    else some (.int64, .longLong v, 8)
  | .float => (floatLiteral conv e.value).map fun literal => (.float, literal, 4)
  | .double => (doubleLiteral conv e.value).map fun literal => (.double, literal, 8)
  | _ => none

def isFloor (mode : FreezeMode) : Bool := mode == .increaseOnly || mode == .neverDecrease

def freezeBody (conv : ValueIo.Converters) (e : CheatEntry) : Option FreezeBody := do
  let (ctype, literal, width) ← freezeScalar conv e
  let big := e.dataByteOrder == .big
  let directional := e.freezeMode != .normal
  if big && directional then none
  else
    some ⟨ctype, literal, width, e.address,
      if big && decide (width > 1) then .reversed
      else if directional then .guarded (isFloor e.freezeMode)
      else .plain⟩

/-- `freezeWriteBody` -/
def freezeWriteBody (conv : ValueIo.Converters) (e : CheatEntry) : Option Bytes :=
  (freezeBody conv e).map FreezeBody.text

/-! ### What the code does -/

/-- The bytes of a variable of the code: the trainer is compiled for a little-endian machine. -/
def storedBytes (width : ℕ) (v : ℤ) : Bytes := leBytes width (v % 2 ^ (8 * width)).toNat

/-- The loop that swaps `b[i]` and `b[width - 1 - i]`. -/
def swapLoop (width : ℕ) (b : Bytes) : Bytes :=
  (List.range (width / 2)).foldl (fun b i =>
    let t := b.getD i 0
    (b.set i (b.getD (width - 1 - i) 0)).set (width - 1 - i) t) b

/-- What the code hands to `wpm`, where its literal is an integer. -/
def FreezeBody.bytes (b : FreezeBody) : Option Bytes :=
  b.literal.value.map fun value =>
    let v := storedBytes b.width value
    if b.store = .reversed then swapLoop b.width v else v

/-- Whether the code comes to `wpm`; `rpm` is the read of the target. -/
def FreezeBody.comes (t : ValueIo.Target) (b : FreezeBody) (v : Bytes) : Bool :=
  match b.store with
  | .guarded floor =>
    match t.read b.address.toNat b.width with
    | none => false
    | some cur =>
      let cur := ValueIo.wordValue b.ctype.isSigned b.width (leNat cur)
      let frozen := ValueIo.wordValue b.ctype.isSigned b.width (leNat v)
      if floor then decide (cur < frozen) else decide (cur > frozen)
  | _ => true

def FreezeBody.writes (t : ValueIo.Target) (b : FreezeBody) : Option (List (ℕ × Bytes)) :=
  b.bytes.map fun v => if b.comes t v then [(b.address.toNat, v)] else []

end CheatEngine.Trainer
